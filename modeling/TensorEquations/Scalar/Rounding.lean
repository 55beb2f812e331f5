/-!
# Rounding to binary digits

* `roundQuotient` — the integer nearest to a quotient.
* `roundTo` — a rational rounded to a number of significant binary digits; a tie goes to the even
  neighbour.
* `roundBinary` — the same with the 53 digits of a decimal.
* `roundedPower` — a natural power rounded once; where its exact mantissa would be long, the
  mantissas on the way are cut to some more digits than asked for.
-/

namespace TensorEquations

/-- The integer nearest to `n / d`; a tie goes to the even neighbour. -/
def roundQuotient (n d : Nat) : Nat :=
  let q := n / d
  let r := n % d
  if 2 * r < d then q else if d < 2 * r then q + 1 else if q % 2 = 0 then q else q + 1

/-- Two to an integer power. -/
def twoPow (k : Int) : Rat :=
  if 0 ≤ k then (Nat.pow 2 k.toNat : Rat) else 1 / (Nat.pow 2 (-k).toNat : Rat)

/-- `n / d` as a multiple of `2 ^ k`, rounded to the nearest integer. -/
def binaryDigits (n d : Nat) (k : Int) : Nat :=
  if 0 ≤ k then roundQuotient n (d * Nat.pow 2 k.toNat) else roundQuotient (n * Nat.pow 2 (-k).toNat) d

/-- A rational rounded to `bits` significant binary digits. -/
def roundTo (bits : Nat) (q : Rat) : Rat :=
  if q.num = 0 then 0 else
  let n := q.num.natAbs
  let guess : Int := (Nat.log2 n : Int) - (Nat.log2 q.den : Int) - bits + 1
  let k := if binaryDigits n q.den guess < Nat.pow 2 (bits - 1) then guess - 1 else guess
  let magnitude := ((binaryDigits n q.den k : Nat) : Rat) * twoPow k
  if q.num < 0 then -magnitude else magnitude

/-- A rational rounded to 53 significant binary digits. -/
def roundBinary (q : Rat) : Rat := roundTo 53 q

/-! ## Powers -/

/-- The number of binary digits. -/
def bitLength (n : Nat) : Nat := if n = 0 then 0 else n.log2 + 1

/-- A natural number as an odd number times a power of two; `bound` limits the power. -/
def oddPart (n : Nat) : Nat → Nat × Nat
  | 0 => (n, 0)
  | bound + 1 =>
    if n % 2 = 1 then (n, 0) else
    let (m, k) := oddPart (n / 2) bound
    (m, k + 1)

/-- The odd mantissa and the exponent of the magnitude of a number with a finite binary form. -/
def mantissa (q : Rat) : Nat × Int :=
  let (m, k) := oddPart q.num.natAbs q.num.natAbs.log2
  (m, (k : Int) - q.den.log2)

/-- A mantissa with its exponent, cut to a number of digits. -/
def cutMantissa (bits : Nat) (m : Nat × Int) : Nat × Int :=
  let extra := bitLength m.1 - bits
  (m.1 >>> extra, m.2 + extra)

/-- A product of mantissas, cut to a number of digits. -/
def mulMantissa (bits : Nat) (a b : Nat × Int) : Nat × Int :=
  cutMantissa bits (a.1 * b.1, a.2 + b.2)

/-- `acc` times the power `base ^ n` by repeated squaring, at most `steps` of them. -/
def powMantissa (bits : Nat) (acc base : Nat × Int) (n : Nat) : Nat → Nat × Int
  | 0 => acc
  | steps + 1 =>
    let acc := if n % 2 = 1 then mulMantissa bits acc base else acc
    if n / 2 = 0 then acc else powMantissa bits acc (mulMantissa bits base base) (n / 2) steps

/-- The power `q ^ n` of a number with a finite binary form, rounded to `bits` digits. -/
def roundedPower (bits : Nat) (q : Rat) (n : Nat) : Rat :=
  let (m, k) := mantissa q
  if m = 1 || bitLength m * n < 1000 then roundTo bits (q ^ n) else
  let (p, e) := powMantissa (bits + 4 * bitLength n + 4) (1, 0) (m, k) n (bitLength n)
  let magnitude := roundTo bits ((p : Rat) * twoPow e)
  if q.num < 0 && n % 2 = 1 then -magnitude else magnitude

end TensorEquations
