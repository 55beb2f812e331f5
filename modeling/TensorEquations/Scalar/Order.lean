import TensorEquations.Scalar.Basic

/-!
# Orders of terms and factors

Two orders, each given by a sort key.

* `Base.order`, `Term.order` — written order: the factors of a product and the terms of a sum as they
  are stored and written.
* `Term.operandKey`, `Factor.operandKey` — operand order: the order in which the terms of a sum and the
  factors of a product are worked through. It matters where decimals are added up or multiplied, since
  each step is rounded, and where the first term with some property is asked for.
* `sortBy` — a stable sort.
-/

namespace TensorEquations

/-! ## Sorting -/

/-- Puts `x` before the first element of a sorted list that it is not after. -/
def insertBy {α : Type} (before : α → α → Bool) (x : α) : List α → List α
  | [] => [x]
  | y :: ys => if before y x then y :: insertBy before x ys else x :: y :: ys

/-- A list sorted by a strict order; equal elements keep their places. -/
def sortBy {α : Type} (before : α → α → Bool) : List α → List α
  | [] => []
  | x :: xs => insertBy before x (sortBy before xs)

/-- One part of a sort key. -/
inductive KeyPart where
  | rank (n : Nat)
  | number (value : Rat)
  | name (text : String)
  deriving DecidableEq, Repr

/-- Ranks before numbers before names, each by value. -/
def KeyPart.order : KeyPart → KeyPart → Ordering
  | .rank m, .rank n => compare m n
  | .rank _, _ => .lt
  | _, .rank _ => .gt
  | .number p, .number q => compareOfLessAndEq p q
  | .number _, _ => .lt
  | _, .number _ => .gt
  | .name s, .name t => compare s t

/-- A sort key; keys are compared part by part. -/
abbrev Key := List KeyPart

/-- Whether a key comes before another. -/
def Key.before (k l : Key) : Bool := List.compareLex KeyPart.order k l == .lt

/-! ## Written order -/

/-- The terms of a sum in the order in which they are written: the stored order, but a positive
number comes before a single power with a negative coefficient when these are all the terms. -/
def displayed {β : Type} : List (Term β) → List (Term β)
  | [⟨c, [f]⟩, ⟨d, []⟩] =>
    if c.value < 0 && d.isPositive then [⟨d, []⟩, ⟨c, [f]⟩] else [⟨c, [f]⟩, ⟨d, []⟩]
  | ts => ts

/-- The key of a coefficient: its value, an exact one before a decimal. -/
def Number.writtenKey (c : Number) : Key :=
  [.number c.value, .rank (if c.isDecimal then 1 else 0)]

/-- The key of a power. -/
def Factor.writtenKey (f : Factor Key) : Key := f.base ++ [.number f.exponent]

/-- The key of a product: numbers, powers of symbols, products, powers of sums; then the bases, the
exponent and the coefficient. The infinite value counts as a factor before the symbols. -/
def Term.writtenKey (t : Term Key) : Key :=
  let (c, fs) : Number × List (Factor Key) := match t.coefficient with
    | .infinite m => (.exact m, ⟨[.rank 2, .rank 0], 1⟩ :: t.factors)
    | c => (c, t.factors)
  match fs with
  | [] => .rank 1 :: c.writtenKey
  | [f] => f.writtenKey ++ c.writtenKey
  | fs => .rank 3 :: .rank fs.length :: fs.flatMap (fun f => f.writtenKey ++ [.number 1]) ++
      .number 1 :: c.writtenKey

/-- The key of a base: symbols by name, then sums by their number of terms and the keys of the
terms as they are written. -/
def Base.writtenKey : Base → Key :=
  Base.fold (fun name => [.rank 2, .name name])
    (fun ts => .rank 4 :: .rank ts.length :: (displayed ts).flatMap Term.writtenKey)

/-- The order of bases by their keys. -/
def Base.order : Base → Base → Ordering
  | .symbol s, .symbol t => compare s t
  | .symbol _, .group _ => .lt
  | .group _, .symbol _ => .gt
  | .group ts, .group us =>
    List.compareLex KeyPart.order (Base.group ts).writtenKey (Base.group us).writtenKey

/-- The order of products in a sum: at the first base in which two products differ, the higher
exponent comes first, an absent base having exponent zero. -/
def compareFactors : List (Factor Base) → List (Factor Base) → Ordering
  | [], [] => .eq
  | [], g :: _ => if 0 < g.exponent then .gt else .lt
  | f :: _, [] => if 0 < f.exponent then .lt else .gt
  | f :: fs, g :: gs =>
    match f.base.order g.base with
    | .lt => if 0 < f.exponent then .lt else .gt
    | .gt => if 0 < g.exponent then .gt else .lt
    | .eq =>
      if f.exponent = g.exponent then compareFactors fs gs
      else if g.exponent < f.exponent then .lt else .gt

/-- Whether a term is a product with the infinite value as a factor. -/
def Term.isInfiniteProduct (t : Term Base) : Bool := t.coefficient.isInfinite && !t.factors.isEmpty

/-- The order of the terms of a sum: by their products, a finite multiple before an infinite one.
Terms that are equal in this order are collected. -/
def Term.order (t u : Term Base) : Ordering :=
  (compareFactors t.factors u.factors).then (compare t.isInfiniteProduct u.isInfiniteProduct)

/-! ## Operand order -/

/-- The key of a number: some numbers have a place of their own, then integers, fractions and
decimals. -/
def Number.operandKey : Number → Key
  | .exact q =>
    if q = 0 then [.rank 0] else if q = 1 then [.rank 1] else if q = 1 / 2 then [.rank 2]
    else if q = -1 then [.rank 4]
    else if q.den = 1 then [.rank 5, .number q] else [.rank 6, .number q.num, .number q.den]
  | .decimal q =>
    let (m, e) := mantissa q
    [.rank 7, .rank (if q < 0 then 1 else 0), .number (m : Rat), .number (e : Rat)]
  | .infinite _ => [.rank 12]
  | .undefined => [.rank 3]

/-- The key of a power: symbols, then powers, then products and sums by the number of operands. -/
def Factor.operandKey (f : Factor Key) : Key :=
  if f.exponent = 1 then f.base
  else .rank 9 :: f.base ++ Number.operandKey (.exact f.exponent)

/-- The operands of a product in front of its powers. -/
def Number.operandKeys : Number → List Key
  | .infinite m => if m = 1 then [Number.operandKey (.infinite 1)]
    else [Number.operandKey (.exact m), Number.operandKey (.infinite 1)]
  | c => if c = 1 then [] else [c.operandKey]

/-- The key of a product from those of its bases. -/
def Term.operandKey (t : Term Key) : Key :=
  if t.factors.isEmpty then t.coefficient.operandKey else
  match t.coefficient.operandKeys ++ sortBy Key.before (t.factors.map Factor.operandKey) with
  | [one] => one
  | several => .rank 10 :: .rank several.length :: several.flatten

/-- Whether a term is a number. -/
def Term.isNumber {β : Type} (t : Term β) : Bool := t.factors.isEmpty

/-- The key of a sum from those of its bases; a number is the first operand. -/
def operandKeyOfSum (ts : List (Term Key)) : Key :=
  let (numbers, products) := ts.partition Term.isNumber
  .rank 11 :: .rank ts.length :: (numbers.map Term.operandKey).flatten ++
    (sortBy Key.before (products.map Term.operandKey)).flatten

/-- The key of a base. -/
def Base.operandKey : Base → Key :=
  Base.fold (fun name => [.rank 8, .name name]) operandKeyOfSum

/-- The factors of a product in operand order. -/
def operandFactors (fs : List (Factor Base)) : List (Factor Base) :=
  let keyed := fs.map fun f => ((f.map Base.operandKey).operandKey, f)
  (sortBy (fun a b => Key.before a.1 b.1) keyed).map (·.2)

/-- The terms of a sum in operand order, a number first. -/
def operandTerms (ts : List (Term Base)) : List (Term Base) :=
  let (numbers, products) := ts.partition Term.isNumber
  let keyed := products.map fun t => ((t.map Base.operandKey).operandKey, t)
  numbers ++ (sortBy (fun a b => Key.before a.1 b.1) keyed).map (·.2)

end TensorEquations
