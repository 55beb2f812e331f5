import TensorEquations.Scalar.PartReplacement

/-!
# Expansion

Products of sums multiplied out.

* `Scalar.multiplyOut` — a polynomial with exact coefficients as the sum of its distinct monomials.
* `Factor.multiplyOut`, `Term.multiplyOut` — powers of sums and products with sums as factors.
* `Scalar.expand` — a polynomial is multiplied out at once; anything else in passes that multiply out
  powers and products in turn, each from the innermost sums outwards, until nothing changes.

The denominators of a product become one factor, together with the denominator of its number, and a
sum in a denominator that is a power is multiplied out as well.
-/

namespace TensorEquations

/-! ## Polynomials -/

/-- The product of two terms. -/
def Term.mul (t u : Term Base) : Term Base :=
  ⟨t.coefficient * u.coefficient, collectFactors (t.factors ++ u.factors)⟩

/-- The product of two sums, term by term. -/
def distribute (ts us : List (Term Base)) : List (Term Base) :=
  collectTerms (ts.flatMap fun t => us.map t.mul)

/-- A natural power of a sum, term by term. -/
def distributePower (ts : List (Term Base)) : Nat → List (Term Base)
  | 0 => [⟨1, []⟩]
  | n + 1 => distribute (distributePower ts n) ts

/-- A product of natural powers of sums times a number. -/
def distributeProduct (t : Term (List (Term Base))) : List (Term Base) :=
  t.factors.foldl (fun product f => distribute product (distributePower f.base f.exponent.toNat))
    [⟨t.coefficient, []⟩]

namespace Scalar

/-- Whether a scalar is a polynomial with exact coefficients. -/
def isPolynomial : Scalar → Bool :=
  fold (fun _ => true) fun ts => ts.all fun t =>
    t.coefficient.isExact && t.factors.all fun f => 0 < f.exponent && f.base

/-- The sum of the monomials of a polynomial. -/
def multiplyOut (s : Scalar) : Scalar :=
  ⟨s.fold (fun name => [⟨1, [⟨.symbol name, 1⟩]⟩]) fun ts => collectTerms (ts.flatMap distributeProduct)⟩

/-! ## Powers of sums -/

/-- The exponents of the products in the power `n` of a sum of `count` terms; the later terms change
slowest. -/
def exponentTuples : Nat → Nat → List (List Nat)
  | 0, n => if n = 0 then [[]] else []
  | 1, n => [[n]]
  | count + 1, n => (List.range (n + 1)).flatMap fun k =>
      (exponentTuples count (n - k)).map (· ++ [k])

/-- The exponents of the products in a power of a sum of two terms: from the outside inwards. -/
def exponentPairs (n : Nat) : List (List Nat) :=
  ((List.range (n / 2 + 1)).flatMap fun k => [[k, n - k], [n - k, k]]).eraseDups

/-- The number of sequences with given numbers of equal elements. -/
def multinomial : List Nat → Nat
  | [] => 1
  | k :: ks => binomial (k + ks.sum) k * multinomial ks
where
  /-- The number of choices of `k` elements out of `n`. -/
  binomial (n k : Nat) : Nat :=
    (List.range k).foldl (fun c i => c * (n - i) / (i + 1)) 1

/-- A power of a sum of terms, multiplied out. -/
def powerOfSum (terms : List Scalar) (n : Nat) : Scalar :=
  let tuples := if terms.length = 2 then exponentPairs n else exponentTuples terms.length n
  sum (tuples.map fun exponents =>
    product (rational (multinomial exponents : Nat) ::
      ((terms.zip exponents).filter (·.2 ≠ 0)).map fun (t, k) => t.pow k))

/-- The terms of a sum as scalars, in operand order. -/
def addends (s : Scalar) : List Scalar :=
  if s.isSum then (operandTerms s.terms).map ofTerm else [s]

end Scalar

/-- A power of a sum multiplied out, also below the quotient bar. -/
def Factor.multiplyOut (f : Factor Base) : Scalar :=
  match f.base with
  | .symbol _ => .ofFactor f
  | .group ts =>
    let power := Scalar.powerOfSum (Scalar.addends ⟨ts⟩) f.exponent.natAbs
    if 1 < f.exponent then power
    else if f.exponent < -1 then power.inv
    else .ofFactor f

/-! ## Products of sums -/

namespace Scalar

/-- The product of several sums, term by term: the first half of them and the second half first;
`bound` limits the halving. -/
def productOfSums : Nat → List Scalar → List Scalar
  | 0, _ => []
  | _ + 1, [] => []
  | _ + 1, [s] => s.addends
  | bound + 1, ss =>
    let left := productOfSums bound (ss.take (ss.length / 2))
    let right := productOfSums bound (ss.drop (ss.length / 2))
    (sum (left.flatMap fun a => right.map fun b => product [a, b])).addends

/-- A product with its sums multiplied out. -/
def distributeSums (s : Scalar) : Scalar :=
  match s.product? with
  | none => s
  | some t =>
    let (sums, others) := t.operands.partition isSum
    if sums.isEmpty then s else
    let front := product others
    sum ((productOfSums sums.length sums).map fun a => product [front, a])

end Scalar

/-- A product multiplied out; several denominators are multiplied out first, and then what is above
them. -/
def Term.multiplyOut (t : Term Base) : Scalar :=
  let (above, below) := t.fraction
  if below.product?.isSome then (above.distributeSums / below.distributeSums).distributeSums
  else (above / below).distributeSums

/-! ## Passes -/

namespace Scalar

/-- A power multiplied out. -/
def expandPower (s : Scalar) : Scalar :=
  match s.power? with
  | some f => f.multiplyOut
  | none => s

/-- A product multiplied out. -/
def expandProduct (s : Scalar) : Scalar :=
  match s.product? with
  | some t => t.multiplyOut
  | none => s

/-- What a scalar, evaluated again if parts of it have changed, becomes by `rule`. -/
def applyRule (rule : Scalar → Scalar) (s : Scalar) (rebuilt : Option Scalar) : Option Scalar :=
  let current := rebuilt.getD s
  let image := rule current
  if image = current then rebuilt else some image

end Scalar

namespace Base

section Pass

variable (rule : Scalar → Scalar)

mutual

/-- The sum in a base after a rule has been applied from the inside outwards, if it has changed. -/
def pass : Base → Option Scalar
  | .symbol _ => none
  | .group ts => rebuildSum? (passTerms ts)

/-- The terms with what they become by a rule. -/
def passTerms : List (Term Base) → List (Changed (Term Base))
  | [] => []
  | ⟨c, fs⟩ :: ts =>
    let parts := passFactors fs
    let image := match parts with
      | [part] => if c = 1 then part.2 else Scalar.applyRule rule (.ofTerm ⟨c, fs⟩) (rebuildProduct? c parts)
      | parts => Scalar.applyRule rule (.ofTerm ⟨c, fs⟩) (rebuildProduct? c parts)
    (⟨c, fs⟩, image) :: passTerms ts

/-- The powers with what they become by a rule. -/
def passFactors : List (Factor Base) → List (Changed (Factor Base))
  | [] => []
  | ⟨b, e⟩ :: fs =>
    let inside := (pass b).map fun s => s.pow e
    let image := if e = 1 then inside else Scalar.applyRule rule (.ofFactor ⟨b, e⟩) inside
    (⟨b, e⟩, image) :: passFactors fs

end

end Pass

end Base

namespace Scalar

/-- One pass of a rule from the innermost sums outwards. -/
def pass (rule : Scalar → Scalar) (s : Scalar) : Scalar :=
  (rebuildSum? (Base.passTerms rule s.terms)).getD s

/-- Passes over powers and products in turn until nothing changes, at most `bound` of each. -/
def expandTimes : Nat → Scalar → Scalar
  | 0, s => s
  | bound + 1, s =>
    let image := (s.pass expandPower).pass expandProduct
    if image = s then s else expandTimes bound image

/-- The expanded form. -/
def expand (s : Scalar) : Scalar :=
  if s.isPolynomial then s.multiplyOut else expandTimes (s.size + 8) s

end Scalar

end TensorEquations
