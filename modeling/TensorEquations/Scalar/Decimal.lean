import TensorEquations.Scalar.Number

/-!
# The text of a number

* `significantDigits` — a positive rational to a number of decimal digits, a half rounded up.
* `DecimalFormat` — the choices of a written form of decimals: digits, zeros at the end, where
  positional notation ends, and the mark of the exponent.
* `Number.text`, `Number.constructor`, `Number.message` — the three written forms of numbers.
-/

namespace TensorEquations.Number

/-- An exact rational: `p`, or `p/q` in lowest terms. -/
def rationalText (q : Rat) : String :=
  if q.den = 1 then toString q.num else s!"{q.num}/{q.den}"

/-- The decimal exponent of a positive rational: the `e` with `10 ^ e ≤ n / d < 10 ^ (e + 1)`. -/
def decimalExponent (n d : Nat) : Int :=
  let up := (Nat.toDigits 10 (n / d)).length
  if d ≤ n then (up : Int) - 1
  else
    let digits := (Nat.toDigits 10 ((d + n - 1) / n)).length
    let k := if d ≤ n * Nat.pow 10 (digits - 1) then digits - 1 else digits
    Int.negOfNat k

/-- `digits` significant decimal digits of a positive rational, a half rounded up, and the exponent
of the first of them. -/
def significantDigits (digits : Nat) (n d : Nat) : Nat × Int :=
  let e := decimalExponent n d
  let shift : Int := (digits : Int) - 1 - e
  let m := if 0 ≤ shift then (2 * n * Nat.pow 10 shift.toNat + d) / (2 * d)
    else (2 * n + d * Nat.pow 10 (-shift).toNat) / (2 * (d * Nat.pow 10 (-shift).toNat))
  if m = Nat.pow 10 digits then (Nat.pow 10 (digits - 1), e + 1) else (m, e)

/-- Trailing zeros dropped, one kept behind the point. -/
def dropZeros (text : List Char) : List Char :=
  match (text.reverse.dropWhile (· == '0')).reverse with
  | [] => ['0']
  | kept => if kept.getLast? = some '.' then kept ++ ['0'] else kept

/-- A point at the end dropped. -/
def dropPoint (text : List Char) : List Char :=
  if text.getLast? = some '.' then text.dropLast else text

/-- A written form of decimals. -/
structure DecimalFormat where
  /-- The number of significant digits. -/
  digits : Nat
  /-- The lowest exponent in positional notation; the highest is below the number of digits. -/
  lowest : Int
  /-- What is done to the digits in the end. -/
  finish : List Char → List Char
  /-- The mark of an exponent. -/
  mark : String

/-- Fifteen digits. -/
def DecimalFormat.plain : DecimalFormat := ⟨15, -4, id, "e"⟩

/-- Fifteen digits without zeros at the end, for a part of a larger expression. -/
def DecimalFormat.short : DecimalFormat := ⟨15, -4, dropZeros, "e"⟩

/-- Seventeen digits without zeros at the end, enough to read the number back. -/
def DecimalFormat.full : DecimalFormat := ⟨17, -4, dropZeros, "e"⟩

/-- Fifteen digits as messages and listings show a number that stands alone: no point at the end,
positional notation down to `-6`, and a capital mark. -/
def DecimalFormat.listed : DecimalFormat := ⟨15, -6, dropPoint, "E"⟩

/-- A decimal in a written form. -/
def decimalText (format : DecimalFormat) (q : Rat) : String :=
  if q.num = 0 then "0.0" else
  let (m, e) := significantDigits format.digits q.num.natAbs q.den
  let figures := Nat.toDigits 10 m
  let sign := if q.num < 0 then "-" else ""
  if format.lowest ≤ e ∧ e < (format.digits : Int) then
    let shown := if e < 0 then List.replicate (-e).toNat '0' ++ figures else figures
    let cut := if e < 0 then 1 else e.toNat + 1
    sign ++ String.ofList (format.finish (shown.take cut ++ '.' :: shown.drop cut))
  else
    let mark := if 0 ≤ e then format.mark ++ "+" else format.mark
    sign ++ String.ofList (format.finish (figures.take 1 ++ '.' :: figures.drop 1)) ++ mark ++
      toString e

/-- The symbol of the infinite value. -/
def infiniteText : String := "zoo"

/-- The symbol of the undefined value. -/
def undefinedText : String := "nan"

/-- The text of a number; `short` drops the trailing zeros of a decimal. -/
def text (short : Bool) : Number → String
  | exact q => rationalText q
  | decimal q => decimalText (if short then .short else .plain) q
  | infinite _ => infiniteText
  | undefined => undefinedText

/-- The text of a number that stands alone in a message or a listing. -/
def message : Number → String
  | decimal q => decimalText .listed q
  | a => a.text false

/-- The constructor text of a number. -/
def constructor : Number → String
  | exact q =>
    if q.den = 1 then s!"Integer({q.num})" else s!"Rational({q.num}, {q.den})"
  | decimal q => "Float('" ++ decimalText .full q ++ "', precision=53)"
  | infinite _ => infiniteText
  | undefined => undefinedText

end TensorEquations.Number
