import TensorEquations.Scalar.Arithmetic
import TensorEquations.Scalar.Text

/-!
# Radicals

* `floorRoot` — the largest natural number whose `k`-th power does not exceed a bound.
* `takeOut` — the `k`-th powers in a natural number taken out of its `k`-th root.
* `Scalar.rationalPower` — a rational power of a positive rational; what has no exact value stays as a
  radical, which is a symbol with the text of the radical as its name.
* `Scalar.power` — a power of any scalar.
-/

namespace TensorEquations

/-! ## Roots of natural numbers -/

/-- The largest number at or above `r` whose `k`-th power does not exceed `n`, its binary digits from
place `bits` down looked for. -/
def rootBits (k n : Nat) : Nat → Nat → Nat
  | 0, r => r
  | bits + 1, r =>
    let raised := r + 2 ^ bits
    rootBits k n bits (if raised ^ k ≤ n then raised else r)

/-- The largest natural number whose `k`-th power does not exceed `n`. -/
def floorRoot (k n : Nat) : Nat := rootBits k n (n.log2 / k + 1) 0

/-- The `k`-th root of a natural number that is a `k`-th power. -/
def exactRoot? (k n : Nat) : Option Nat :=
  let r := floorRoot k n
  if Nat.pow r k = n then some r else none

/-- The largest divisor that is tried. -/
def divisorLimit : Nat := 32768

/-- `out · ᵏ√n` with the `k`-th powers of `d` moved to the front. -/
def pull (k d : Nat) : Nat → Nat × Nat → Nat × Nat
  | 0, found => found
  | bound + 1, (out, n) =>
    if n % d ^ k = 0 then pull k d bound (out * d, n / d ^ k) else (out, n)

/-- A `k`-th root as a natural number times a `k`-th root without `k`-th powers. -/
def takeOut (k n : Nat) : Nat × Nat :=
  match exactRoot? k n with
  | some r => (r, 1)
  | none =>
    ((List.range (min divisorLimit (floorRoot k n) - 1)).map (· + 2)).foldl
      (fun found d => pull k d n.log2 found) (1, n)

/-- The text of a rational power of a natural number or of a text in its place. -/
def radicalText (base : String) (exponent : Rat) : String :=
  if exponent = 1 / 2 then "sqrt(" ++ base ++ ")"
  else base ++ "**(" ++ Number.rationalText exponent ++ ")"

/-- The `k`-th root of a natural number without `k`-th powers; of the powers that the number is, the
highest is written as the power of a root. -/
def rootSymbol (k n : Nat) : Scalar :=
  let found := (List.range k).reverse.findSome? fun g =>
    if g = 0 then none else (exactRoot? g n).map fun r => (g, r)
  match found with
  | some (g, r) => .symbol (radicalText (toString r) ((g : Rat) / k))
  | none => .symbol (radicalText (toString n) (1 / k))

namespace Scalar

/-- A rational power of a positive rational. -/
def rationalPower (q e : Rat) : Scalar :=
  let raised := q ^ e.num
  let k := e.den
  let (out, rest) := takeOut k (raised.num.natAbs * Nat.pow raised.den (k - 1))
  let front := rational ((out : Rat) / raised.den)
  if rest = 1 then front else front * rootSymbol k rest

/-- A scalar as the base or the exponent of a power. -/
def operandText (s : Scalar) : String :=
  match s.number?, s.terms with
  | some (.exact q), _ => if q.den = 1 ∧ 0 ≤ q then s.text else "(" ++ s.text ++ ")"
  | some c, _ => if c.isNegative then "(" ++ c.text true ++ ")" else c.text true
  | none, _ => if s.symbol?.isSome then s.text else "(" ++ s.text ++ ")"

/-- A power without a value, as a symbol. -/
def opaquePower (a b : Scalar) : Scalar :=
  .symbol <| match b.number? with
    | some (.exact q) =>
      if q = 1 / 2 then "sqrt(" ++ a.text ++ ")"
      else if q = -1 / 2 then "1/sqrt(" ++ a.text ++ ")"
      else radicalText a.operandText q
    | _ => a.operandText ++ "**" ++ b.operandText

/-- A power of a scalar. -/
def power (a b : Scalar) : Scalar :=
  match a.number?, b.number? with
  | _, some (.exact e) =>
    if e.den = 1 then a.pow e.num else
    match a.number? with
    | some (.exact q) =>
      if 0 < q then rationalPower q e
      else if q < 0 then opaquePower a b
      else if 0 < e then 0 else .number (.infinite 1)
    | _ => opaquePower a b
  | some c, some (.decimal e) =>
    if e.den = 1 ∧ c.isExact && !c.isZero then .number ((Number.decimal c.rounded).pow e.num)
    else if e.den = 1 ∧ c.isDecimal && !c.isZero then .number (c.pow e.num)
    else opaquePower a b
  | some (.exact q), none => if q = 1 then 1 else opaquePower a b
  | _, some .undefined => undefined
  | _, _ => opaquePower a b

end Scalar

end TensorEquations
