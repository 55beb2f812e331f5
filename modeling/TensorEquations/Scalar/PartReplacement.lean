import TensorEquations.Scalar.Replacement

/-!
# Replacement of a part

One scalar in place of another wherever that one occurs as a part.

* `Part.inNumber`, `Part.inPower`, `Part.inProduct`, `Part.inSum` — the occurrences at the top of a
  scalar of each shape; if there are none, the parts of the scalar are looked at.
* `Part.replaceFrom` — the replacement, from the outside inwards.
* `Scalar.replacePart` — the replacement of any part; a symbol is replaced everywhere.

A product occurs in a product as often as it divides it, and a sum occurs in a sum that has all its
terms, with either sign. A quotient is looked at as two products first.
-/

namespace TensorEquations

/-! ## Divisibility -/

/-- How often `d` divides `n`, at most `bound` times. -/
def dividesTimes (d n : Nat) : Nat → Nat
  | 0 => 0
  | bound + 1 => if 1 < d ∧ 0 < n ∧ n % d = 0 then dividesTimes d (n / d) bound + 1 else 0

/-- How often one natural number divides another. -/
def multiplicity (d n : Nat) : Int := dividesTimes d n n.log2

/-- How often a positive rational other than one divides a rational: for fractions, as often as
numerators and denominators both divide, less as often as they divide crosswise. -/
def rationalMultiplicity (d q : Rat) : Int :=
  let p := d.num.natAbs
  let n := q.num.natAbs
  if d.den = 1 then
    if q.num = 1 then -multiplicity p q.den else multiplicity p n - multiplicity p q.den
  else if p = 1 then multiplicity d.den q.den
  else min (multiplicity p n) (multiplicity d.den q.den)
    - min (multiplicity d.den n) (multiplicity p q.den)

/-- Whether a rational can be taken out of another one: an integer has to stay an integer and a
positive number positive. -/
def extractable (q d : Rat) : Bool :=
  let quotient := q / d
  (q.den ≠ 1 || quotient.den = 1) && !(0 < q && quotient < 0)

/-! ## The parts of a product -/

/-- The rational in front of a product, if there is one. -/
def Term.front? (t : Term Base) : Option Rat :=
  match t.coefficient with
  | .exact q => if q = 1 then none else some q
  | .infinite m => if m = 1 then none else some m
  | _ => none

/-- Whether a product has a negative number in front. -/
def Term.isNegative (t : Term Base) : Bool := t.coefficient.isNegative

/-- Whether a product has a number in front. -/
def Term.hasNumber (t : Term Base) : Bool := t.coefficient.isDecimal || t.front?.isSome

/-- Whether a term is a product of several operands. -/
def Term.isProduct (t : Term Base) : Bool :=
  match t.factors with
  | [] => false
  | [_] => t.coefficient ≠ 1
  | _ => true

/-- The product that a scalar is. -/
def Scalar.product? (s : Scalar) : Option (Term Base) :=
  match s.terms with
  | [t] => if t.isProduct then some t else none
  | _ => none

/-- The power that a scalar is. -/
def Scalar.power? (s : Scalar) : Option (Factor Base) :=
  match s.terms with
  | [⟨c, [f]⟩] => if c = 1 ∧ f.exponent ≠ 1 then some f else none
  | _ => none

/-- The operands of a product as bases with exponents; a number has the exponent one. -/
def Term.bases (t : Term Base) : List (Scalar × Int) :=
  ((⟨t.coefficient, []⟩ : Term Base).operands.map fun c => (c, 1)) ++
    (operandFactors t.factors).map fun f => (Scalar.ofFactor ⟨f.base, 1⟩, f.exponent)

/-- The operands of a product above and below the quotient bar. -/
def Term.fraction (t : Term Base) : Scalar × Scalar :=
  let powers := operandFactors t.factors
  let (above, below) : List Scalar × List Scalar := match t.coefficient with
    | .exact q => ([.rational q.num], [.rational q.den])
    | c => ((⟨c, []⟩ : Term Base).operands, [])
  (.product (above ++ (powers.filter (0 < ·.exponent)).map Scalar.ofFactor),
    .product (below ++ (powers.filter (·.exponent < 0)).map fun f =>
      Scalar.ofFactor ⟨f.base, -f.exponent⟩))

/-- The constant of a sum and its other terms; the infinite value is no constant. -/
def Scalar.splitConstant (s : Scalar) : Number × List (Term Base) :=
  match s.terms.partition fun t => t.isNumber && !t.coefficient.isInfinite with
  | (t :: _, ts) => (t.coefficient, ts)
  | ([], ts) => (0, ts)

/-! ## Occurrences -/

namespace Part

variable (recur : Scalar → Scalar → Scalar → Scalar)

/-- The replacement in a number: the negative of the part becomes the negative of its image. -/
def inNumber (old new : Scalar) (c : Number) : Scalar :=
  match old.number? with
  | some d => if !c.isInfinite && d = -c then -new else .number c
  | none => .number c

/-- The replacement in an exponent, which changes only into an integer. -/
def inExponent (old new : Scalar) (e : Int) : Int :=
  match (recur old new (.rational e)).number? with
  | some (.exact q) => if q.den = 1 then q.num else e
  | _ => e

/-- The replacement in a power: of its base, or of a power of the same base whose exponent divides
the exponent. -/
def inPower (old new : Scalar) (f : Factor Base) : Scalar :=
  let base := Scalar.ofFactor ⟨f.base, 1⟩
  let inside := if f.exponent = 1 then base else (recur old new base).pow (inExponent recur old new f.exponent)
  if base = old then new.pow f.exponent else
  match old.power? with
  | some g =>
    if f.base = g.base ∧ Int.tmod f.exponent g.exponent = 0
      then new.pow (Int.tdiv f.exponent g.exponent) else inside
  | none => inside

/-- The replacement in the operands of a product. -/
def inFactors (old new : Scalar) (t : Term Base) : Scalar :=
  let parts := t.operands
  let images := parts.map (recur old new)
  if images = parts then .ofTerm t else .product images

/-- How often the operands of a product are among those of another one: each with an exponent of the
same sign, rounded toward zero. -/
def timesAmong (wanted found : List (Scalar × Int)) : Option Nat :=
  let times := wanted.map fun (b, e) =>
    match found.lookup b with
    | some d => if 0 < d * e then (Int.tdiv d e).toNat else 0
    | none => 0
  if times.contains 0 then none else times.min?

/-- The number in front of a product, taken apart into a power of the number in front of the part
and the rest, when the first divides the second. -/
def splitFront (front : Rat) (d : Rat) (bases : List (Scalar × Int)) : Rat × List (Scalar × Int) :=
  if front ≠ d ∧ extractable front d ∧ d ≠ 1 ∧ d ≠ -1 then
    let times := rationalMultiplicity (if d < 0 then -d else d) front
    (front * d ^ (-times), bases.filter (·.1 ≠ .rational front) ++ [(.rational d, times)])
  else (1, bases)

/-- The replacement of the product `d` in the product `t`, if it occurs. -/
def occurrence? (old new : Scalar) (d t : Term Base) : Option Scalar :=
  let split : Option (Rat × List (Scalar × Int)) := match d.front?, t.front? with
    | some p, some q => some (splitFront q p t.bases)
    | some _, none => none
    | none, _ => some (1, t.bases)
  split.bind fun (rest, bases) =>
    (timesAmong d.bases bases).map fun times =>
      let others := bases.map fun (b, e) =>
        match d.bases.lookup b with
        | some k => b.pow (e - k * times)
        | none => (recur old new b).pow e
      Scalar.rational rest * .product (new.pow times :: others)

/-- The replacement in a product. A part with a negative number in front is sought in products with a
negative number in front only, both without the sign. -/
def inProduct (old new : Scalar) (t : Term Base) : Scalar :=
  match old.product? with
  | none => inFactors recur old new t
  | some d =>
    if d.isNegative && t.hasNumber then
      if t.isNegative then recur (-old) (-new) (.ofTerm t) else inFactors recur old new t
    else
      let (above, below) := t.fraction
      let s := if below = 1 then .ofTerm t else recur old new above / recur old new below
      match s.product? with
      | none => recur old new s
      | some u =>
        match occurrence? recur old new d u with
        | some found => found
        | none => if s = .ofTerm t then inFactors recur old new t else s

/-- The replacement in the terms of a sum. -/
def inTerms (old new s : Scalar) : Scalar :=
  let parts := (operandTerms s.terms).map Scalar.ofTerm
  let images := parts.map (recur old new)
  if images = parts then s else .sum images

/-- The replacement of a sum in a sum; the constants make up the difference. -/
def inSum (old new s : Scalar) : Scalar :=
  if !old.isSum then inTerms recur old new s else
  let (c, ts) := s.splitConstant
  let (d, us) := old.splitConstant
  let negated := us.map (Term.scale (-1))
  let found (image : Scalar) (d : Number) (us : List (Term Base)) : Scalar :=
    .sum (image :: .number c :: .number (-d) ::
      (operandTerms (ts.filter fun t => !us.contains t)).map fun t => recur old new (.ofTerm t))
  let rationals := c.isExact && d.isExact
  let smaller := (rationals || c = d) && us.length < ts.length
  if rationals && ts = us || smaller && us.all ts.contains then found new d us
  else if rationals && ts = negated || smaller && negated.all ts.contains then
    found (-new) (-d) negated
  else inTerms recur old new s

/-- The replacement in a scalar of any shape. -/
def step (old new s : Scalar) : Scalar :=
  if s = old then new else
  match s.terms with
  | [] => inNumber old new 0
  | [⟨c, []⟩] => inNumber old new c
  | [⟨c, [f]⟩] =>
    if c = 1 then inPower recur old new f else inProduct recur old new ⟨c, [f]⟩
  | [t] => inProduct recur old new t
  | _ => inSum recur old new s

/-- The replacement of `old` by `new` down to a given depth. -/
def replaceFrom : Nat → Scalar → Scalar → Scalar → Scalar
  | 0, _, _, s => s
  | depth + 1, old, new, s => step (replaceFrom depth) old new s

end Part

/-- The number of symbols and sums in a scalar. -/
def Scalar.size : Scalar → Nat :=
  fold (fun _ => 1) (fun ts => 1 + (ts.flatMap fun t => t.factors.map (·.base)).foldl (· + ·) ts.length)

/-- A scalar in place of a part. -/
def Scalar.replacePart (s old new : Scalar) : Scalar :=
  if old = new then s else
  match old.symbol? with
  | some name => s.replace name new
  | none => Part.replaceFrom (4 * (s.size + new.size) + 8) old new s

end TensorEquations
