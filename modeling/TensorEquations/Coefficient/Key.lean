/-!
# Coefficient keys

A coefficient is identified by a text and by the sizes of its two blocks of indices, each with its
derivative indices.

* `BlockShape` — the four sizes; `BlockShape.canonical` puts the larger block first.
* `CoefficientKey` — the identity of a coefficient, with its rank, its name and its sort key.
* `labelSeries` — the labels `a b … z a1 b1 …` of a coefficient.
* `CoefficientKey.order` — keys by their sizes and then by their text.
* `Mention` — a shape in either order of its blocks and a text, which together mean a coefficient.
-/

namespace TensorEquations

/-- The sizes of the left and of the right block of indices and of their derivative indices. -/
structure BlockShape where
  left : Int
  leftDerivatives : Int
  right : Int
  rightDerivatives : Int
  deriving DecidableEq, Repr

namespace BlockShape

/-- The blocks exchanged. -/
def swap (s : BlockShape) : BlockShape :=
  ⟨s.right, s.rightDerivatives, s.left, s.leftDerivatives⟩

/-- The block with more indices comes first; of two blocks with as many indices, the one with more
derivative indices. -/
def canonical (s : BlockShape) : BlockShape :=
  if s.left < s.right ∨ (s.left = s.right ∧ s.leftDerivatives < s.rightDerivatives) then s.swap
  else s

def toList (s : BlockShape) : List Int :=
  [s.left, s.leftDerivatives, s.right, s.rightDerivatives]

/-- The number of all indices. -/
def rank (s : BlockShape) : Int :=
  s.left + s.leftDerivatives + s.right + s.rightDerivatives

end BlockShape

/-- The identity of a coefficient. -/
structure CoefficientKey where
  shape : BlockShape
  id : String
  deriving DecidableEq, Repr

/-- The letters of labels. -/
def labelLetters : List Char := "abcdefghijklmnopqrstuvwxyz".toList

/-- The label at a place of the series: a letter, and the number of the round from the second on. -/
def seriesLabel (k : Nat) : String :=
  let round := k / 26
  String.singleton (labelLetters.getD (k % 26) 'a') ++ if round = 0 then "" else toString round

/-- The first labels of the series `a b … z a1 b1 … z1 a2 …`. -/
def labelSeries (count : Nat) : List String := (List.range count).map seriesLabel

/-- Whether a character may stand in the name of a coefficient. -/
def isNameSafe (c : Char) : Bool := c.isAlphanum || c = '_'

namespace CoefficientKey

/-- The key of a shape in either order of its blocks. -/
def canonical (shape : BlockShape) (id : String) : CoefficientKey := ⟨shape.canonical, id⟩

def rank (k : CoefficientKey) : Int := k.shape.rank

/-- The labels of a coefficient; a rank below zero has none. -/
def labels (k : CoefficientKey) : List String := labelSeries k.rank.toNat

/-- The text of a key with every other character replaced by an underscore. -/
def safeId (id : String) : String :=
  String.ofList (id.toList.map fun c => if isNameSafe c then c else '_')

/-- The name of a coefficient. -/
def name (k : CoefficientKey) : String :=
  "_".intercalate ("Coefficient" :: safeId k.id :: k.shape.toList.map toString)

/-- The order of keys: the sizes one after the other, then the text. -/
def order (j k : CoefficientKey) : Ordering :=
  (compare j.shape.left k.shape.left).then
    ((compare j.shape.leftDerivatives k.shape.leftDerivatives).then
      ((compare j.shape.right k.shape.right).then
        ((compare j.shape.rightDerivatives k.shape.rightDerivatives).then
          (compare j.id k.id))))

/-- Whether a key comes before another or equals it. -/
def le (j k : CoefficientKey) : Bool := (order j k).isLE

/-- Keys in ascending order. -/
def sort (keys : List CoefficientKey) : List CoefficientKey := keys.mergeSort le

end CoefficientKey

/-- A mention of a coefficient; its blocks may come in either order. -/
structure Mention where
  shape : BlockShape
  id : String
  deriving DecidableEq, Repr

/-- The key of the coefficient that is meant. -/
def Mention.key (m : Mention) : CoefficientKey := .canonical m.shape m.id

end TensorEquations
