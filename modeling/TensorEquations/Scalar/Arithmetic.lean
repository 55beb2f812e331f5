import TensorEquations.Scalar.Order

/-!
# Arithmetic of scalars

Sums and products in automatic normal form: like terms are collected, equal bases are collected, a
number times a single sum is distributed, and nothing else is multiplied out.

* `insertTerm`, `Scalar.ofTerms` — a sum of terms, like terms collected from left to right.
* `insertFactor`, `Scalar.ofProduct` — a number times a product of powers; a lone sum to the first
  power is taken out of its parentheses.
* `Scalar.sum`, `Scalar.product`, `Scalar.pow` — sums, products and integer powers.

The infinite value absorbs numbers, both in sums and in products, and an undefined number makes the
whole scalar undefined.
-/

namespace TensorEquations

/-! ## Sums -/

/-- The sum of two coefficients of the same product; multiples of an infinite product add up. -/
def addCoefficients (t u : Term Base) : Number :=
  match t.coefficient, u.coefficient with
  | .infinite m, .infinite n => if t.factors.isEmpty then .undefined else .infinite (m + n)
  | c, d => c + d

/-- Whether a coefficient makes its term vanish. -/
def Number.vanishes : Number → Bool
  | infinite m => m == 0
  | c => c.isZero

/-- A term added to a sum in written order. -/
def insertTerm (t : Term Base) : List (Term Base) → List (Term Base)
  | [] => [t]
  | u :: us =>
    match t.order u with
    | .lt => t :: u :: us
    | .gt => u :: insertTerm t us
    | .eq =>
      let c := addCoefficients u t
      if c.vanishes then us else ⟨c, t.factors⟩ :: us

/-- The sum of a list of terms. -/
def collectTerms (ts : List (Term Base)) : List (Term Base) :=
  (ts.filter fun t => !t.coefficient.vanishes).foldl (fun sum t => insertTerm t sum) []

/-- A rational multiple of a term; the infinite value alone has no multiples. -/
def Term.scale (c : Rat) (t : Term Base) : Term Base :=
  ⟨if t.factors.isEmpty && t.coefficient.isInfinite then t.coefficient else t.coefficient.scale c,
    t.factors⟩

/-! ## Products -/

/-- A power multiplied to a product in written order; a power with exponent zero stays. -/
def insertFactor (f : Factor Base) : List (Factor Base) → List (Factor Base)
  | [] => [f]
  | g :: gs =>
    match f.base.order g.base with
    | .lt => f :: g :: gs
    | .gt => g :: insertFactor f gs
    | .eq => ⟨g.base, g.exponent + f.exponent⟩ :: gs

/-- The product of a list of powers. -/
def collectFactors (fs : List (Factor Base)) : List (Factor Base) :=
  fs.foldl (fun product f => insertFactor f product) []

/-- Every exponent times `n`. -/
def raiseFactors (n : Int) (fs : List (Factor Base)) : List (Factor Base) :=
  fs.map fun f => ⟨f.base, f.exponent * n⟩

/-- A sum with the infinite value as a term: its power zero is undefined. -/
def Base.isInfiniteSum : Base → Bool
  | .symbol _ => false
  | .group ts => ts.any fun t => t.isNumber && t.coefficient.isInfinite

/-! ## Powers of sums with decimals -/

/-- The magnitude of a number. -/
def Number.magnitude (c : Number) : Number := if c.isNegative then -c else c

/-- The largest magnitude among numbers; of equal ones the last. -/
def largestMagnitude (cs : List Number) : Number :=
  cs.foldl (fun big c => if big.value ≤ c.magnitude.value then c.magnitude else big) 0

/-- A coefficient divided by the largest one; those of that magnitude become `1` or `-1`. -/
def Number.over (c big : Number) : Number :=
  match c with
  | infinite m => infinite m
  | c => if c.magnitude = big then (if c.isNegative then -1 else 1) else c / big

/-- In a power of a sum with decimals other than the sum and its reciprocal, the largest coefficient
is taken out of the sum: the number in front and the power that is left. -/
def Factor.extract (f : Factor Base) : Number × Factor Base :=
  match f.base with
  | .symbol _ => (1, f)
  | .group ts =>
    let big := largestMagnitude ((operandTerms ts).map (·.coefficient))
    if f.exponent.natAbs ≤ 1 || !ts.any (·.coefficient.isDecimal) || big = 1 ||
        (ts.length == 2 && f.base.isInfiniteSum) then (1, f)
    else
      (big.pow f.exponent, ⟨.group (ts.map fun t => ⟨t.coefficient.over big, t.factors⟩), f.exponent⟩)

/-- The infinite value has no multiples as the coefficient of a product on its own. -/
def Number.settled : Number → Number
  | infinite _ => infinite 1
  | c => c

namespace Scalar

/-- A sum of terms in any order. -/
def ofTerms (ts : List (Term Base)) : Scalar :=
  let us := collectTerms ts
  if us.any (·.coefficient.isUndefined) then undefined else ⟨us⟩

/-- A number times a product in written order; a number is distributed over a lone sum. -/
def ofFactors (c : Number) (fs : List (Factor Base)) : Scalar :=
  if c.isUndefined then undefined else
  if c.isZero then ⟨[]⟩ else
  match fs with
  | [] => ⟨[⟨c, []⟩]⟩
  | [⟨.group ts, 1⟩] =>
    if c = 1 then ⟨ts⟩
    else if c.isInfinite then ⟨[⟨c, fs⟩]⟩
    else ofTerms (ts.map fun t => ⟨c * t.coefficient, t.factors⟩)
  | fs => ⟨[⟨c, fs⟩]⟩

/-- A number times a product in written order that may still have powers with exponent zero. -/
def ofProduct (c : Number) (fs : List (Factor Base)) : Scalar :=
  if fs.any (fun f => f.exponent == 0 && f.base.isInfiniteSum) then undefined else
  let parts := (fs.filter (·.exponent != 0)).map Factor.extract
  ofFactors ((parts.map (·.1)).foldl (· * ·) c).settled (parts.map (·.2))

/-- A power as a scalar. -/
def ofFactor (f : Factor Base) : Scalar :=
  match f with
  | ⟨.group ts, 1⟩ => ⟨ts⟩
  | f => ⟨[⟨1, [f]⟩]⟩

/-- A term as a scalar. -/
def ofTerm (t : Term Base) : Scalar := ofFactors t.coefficient t.factors

/-- A scalar as a number times a product: a sum of several terms is one base. -/
def asProduct (s : Scalar) : Number × List (Factor Base) :=
  match s.terms with
  | [] => (0, [])
  | [t] => (t.coefficient, t.factors)
  | ts => (1, [⟨.group ts, 1⟩])

/-- Whether a scalar is a sum of several terms. -/
def isSum (s : Scalar) : Bool := decide (2 ≤ s.terms.length)

/-- The sum of a list. Numbers and products are added up first, then the terms of sums. -/
def sum (xs : List Scalar) : Scalar :=
  match xs.filter (!·.isZero) with
  | [] => 0
  | [x] => x
  | xs =>
    let (sums, singles) := xs.partition isSum
    ofTerms (singles.flatMap terms ++ sums.flatMap terms)

/-- A rational multiple of a sum of several terms, distributed. -/
def distribute? (x y : Scalar) : Option Scalar :=
  match x.number? with
  | some (.exact q) => if q ≠ 0 ∧ y.isSum then some ⟨y.terms.map (Term.scale q)⟩ else none
  | _ => none

/-- The product of a list. Numbers are multiplied first, then the coefficients of products. -/
def multiply (xs : List Scalar) : Scalar :=
  let (numbers, others) := xs.partition (·.number?.isSome)
  let coefficient := (numbers ++ others).foldl (fun c x => c * x.asProduct.1) 1
  ofProduct coefficient (collectFactors (others.flatMap (·.asProduct.2)))

/-- The product of a list; a rational times a sum is distributed. -/
def product (xs : List Scalar) : Scalar :=
  match xs.filter (· ≠ 1) with
  | [] => 1
  | [x] => x
  | [x, y] => ((distribute? x y).orElse fun _ => distribute? y x).getD (multiply [x, y])
  | xs => multiply xs

def add (a b : Scalar) : Scalar :=
  match a.number?, b.number? with
  | some p, some q => number (p + q)
  | _, _ => sum [a, b]

def mul (a b : Scalar) : Scalar := product [a, b]

def neg (a : Scalar) : Scalar := ⟨a.terms.map (Term.scale (-1))⟩

/-- An integer power. -/
def pow (a : Scalar) (n : Int) : Scalar :=
  if n = 0 then 1 else if n = 1 then a else
  match a.number? with
  | some c => number (c.pow n)
  | none => ofProduct (a.asProduct.1.pow n) (raiseFactors n a.asProduct.2)

/-- The reciprocal. -/
def inv (a : Scalar) : Scalar := a.pow (-1)

instance : Add Scalar := ⟨add⟩
instance : Mul Scalar := ⟨mul⟩
instance : Neg Scalar := ⟨neg⟩
instance : Sub Scalar := ⟨fun a b => a + -b⟩

/-- A quotient; numbers are divided, anything else is multiplied by the reciprocal. -/
def div (a b : Scalar) : Scalar :=
  match a.number?, b.number? with
  | some p, some q => number (p / q)
  | _, _ => a * b.inv

instance : Div Scalar := ⟨div⟩

end Scalar

/-- The operands of a term: its number, and its powers in operand order. -/
def Term.operands (t : Term Base) : List Scalar :=
  let front : List Scalar := match t.coefficient with
    | .infinite m => [.rational m, .number (.infinite 1)]
    | c => [.number c]
  front.filter (· ≠ 1) ++ (operandFactors t.factors).map Scalar.ofFactor

end TensorEquations
