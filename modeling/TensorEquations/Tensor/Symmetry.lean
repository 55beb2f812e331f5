import TensorEquations.Tensor.Arithmetic

/-!
# Symmetrization

* `arrangements` — all orders of a list.
* `parity` — the sign of a permutation by its inversions.
* `Tensor.permutedSum` — the sum over all exchanges of blocks of labels, with signs if wanted.
* `Tensor.symmetrize`, `Tensor.antisymmetrize`, `Tensor.blockSymmetrize`,
  `Tensor.exchangeSymmetrize` — the four symmetrizers.
-/

namespace TensorEquations

/-! ## Permutations -/

/-- Every element of a list with the others in order. -/
def picks {α : Type} : List α → List (α × List α)
  | [] => []
  | x :: xs => (x, xs) :: (picks xs).map fun (y, ys) => (y, x :: ys)

/-- The orders of `n` elements of a list, in lexicographic order by the places in it. -/
def arrangementsOf {α : Type} : Nat → List α → List (List α)
  | 0, _ => [[]]
  | n + 1, xs => (picks xs).flatMap fun (x, rest) => (arrangementsOf n rest).map (x :: ·)

/-- All orders of a list. -/
def arrangements {α : Type} (xs : List α) : List (List α) := arrangementsOf xs.length xs

/-- The number of pairs that stand in the wrong order. -/
def inversions : List Nat → Nat
  | [] => 0
  | x :: xs => xs.countP (· < x) + inversions xs

/-- The sign of a permutation of numbers. -/
def parity (p : List Nat) : Int := if inversions p % 2 = 1 then -1 else 1

/-- The product of the numbers from one to `n`. -/
def factorial : Nat → Nat
  | 0 => 1
  | n + 1 => (n + 1) * factorial n

/-- An assignment in which every label of `source` takes the value of the label of `target` at the
same place. -/
def Assignment.exchange (ν : Assignment) (source target : List String) : Assignment :=
  fun label => ν (((source.zip target).lookup label).getD label)

namespace Tensor

/-- The labels have to be pairwise different labels of the tensor. -/
def checkLabels (t : Tensor) (labels : List String) : Except ShapeError Unit :=
  match labels.find? fun label => !t.labels.contains label with
  | some label => .error (.unknownLabel label t.labels)
  | none => if labels.Nodup then .ok () else .error (.repeatedLabel labels)

/-- The sum over all orders of the blocks of the tensor with the blocks so exchanged; a signed sum
takes odd orders negatively. -/
def permutedSum (t : Tensor) (blocks : List (List String)) (signed : Bool) : Tensor :=
  tabulate t.labels t.nodup_labels t.dimension fun ν =>
    addUp ((arrangements (List.range blocks.length)).map fun p =>
      let source := p.flatMap fun k => blocks.getD k []
      let term := t.lookup (ν.exchange source blocks.flatten)
      if signed && decide (parity p < 0) then -term else term)

/-- Divides a sum over the orders of `n` things by their number, if wanted. -/
def normalize (t : Tensor) (scaled : Bool) (n : Nat) : Tensor :=
  if scaled then t.scale (.rational (1 / (factorial n : Rat))) else t

/-- Averages, or sums, over all orders of the labels. -/
def symmetrize (t : Tensor) (labels : List String) (scaled : Bool) : Except ShapeError Tensor := do
  t.checkLabels labels
  return (t.permutedSum (labels.map fun l => [l]) false).normalize scaled labels.length

/-- Averages, or sums, over all orders of the labels with their signs. -/
def antisymmetrize (t : Tensor) (labels : List String) (scaled : Bool) :
    Except ShapeError Tensor := do
  t.checkLabels labels
  return (t.permutedSum (labels.map fun l => [l]) true).normalize scaled labels.length

/-- Averages, or sums, over all orders of blocks of labels of one length. -/
def blockSymmetrize (t : Tensor) (blocks : List (List String)) (scaled : Bool) :
    Except ShapeError Tensor :=
  match blocks with
  | [] => .ok t
  | first :: _ => do
    if blocks.any fun block => block.length ≠ first.length then throw .blockLengths
    t.checkLabels blocks.flatten
    return (t.permutedSum blocks false).normalize scaled blocks.length

/-- The sum, or the average, of a tensor and the same components under other labels. -/
def exchangeSymmetrize (t : Tensor) (labels : List String) (scaled : Bool) :
    Except ShapeError Tensor := do
  let exchanged ← t.withLabels labels
  let total ← t.add exchanged
  return if scaled then total.scale (.rational (1 / 2)) else total

end Tensor

end TensorEquations
