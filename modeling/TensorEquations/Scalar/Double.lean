import TensorEquations.Scalar.Decimal
import TensorEquations.Text.Integer

/-!
# Double-precision numbers

* `Double` — a finite double-precision value as a rational with its sign, an infinity, or no number.
* `Double.ofRat` — the double nearest to a rational, a tie going to the even neighbour.
* `Double.text` — the fewest digits that read back as the same double.
* `Double.ofText?` — the double that a text writes.
-/

namespace TensorEquations

/-- A double-precision number. -/
inductive Double where
  | finite (negative : Bool) (magnitude : Rat)
  | infinite (negative : Bool)
  | notANumber
  deriving DecidableEq, Repr

namespace Double

/-- The multiple of the last place that is nearest to a positive rational; places below `2 ^ -1074`
do not exist. -/
def roundMagnitude (q : Rat) : Rat :=
  if q.num ≤ 0 then 0 else
  let n := q.num.natAbs
  let guess : Int := (Nat.log2 n : Int) - (Nat.log2 q.den : Int) - 52
  let place := if binaryDigits n q.den guess < Nat.pow 2 52 then guess - 1 else guess
  let place := max place (-1074)
  ((binaryDigits n q.den place : Nat) : Rat) * twoPow place

/-- The double nearest to a signed magnitude; large magnitudes become infinite. -/
def ofMagnitude (negative : Bool) (q : Rat) : Double :=
  let r := roundMagnitude q
  if twoPow 1024 ≤ r then infinite negative else finite negative r

/-- The double nearest to a rational. -/
def ofRat (q : Rat) : Double :=
  if q < 0 then ofMagnitude true (-q) else ofMagnitude false q

/-- Less than zero; the negative zero is not. -/
def isNegative : Double → Bool
  | finite negative m => negative && m ≠ 0
  | infinite negative => negative
  | notANumber => false

/-- Zero of either sign. -/
def isZero : Double → Bool
  | finite _ m => m == 0
  | _ => false

/-- The rational that a finite double is. -/
def toRat? : Double → Option Rat
  | finite negative m => some (if negative then -m else m)
  | _ => none

/-! ## Text -/

/-- The digits of the neighbours of a positive rational with a given number of significant digits,
and the power of ten of their last place. -/
def decimalNeighbours (digits : Nat) (q : Rat) : List Nat × Int :=
  let e := Number.decimalExponent q.num.natAbs q.den
  let shift : Int := (digits : Int) - 1 - e
  let n := if 0 ≤ shift then q.num.natAbs * Nat.pow 10 shift.toNat else q.num.natAbs
  let d := if 0 ≤ shift then q.den else q.den * Nat.pow 10 (-shift).toNat
  let below := n / d
  let pair := if 2 * (n % d) ≤ d then [below, below + 1] else [below + 1, below]
  (pair, -shift)

/-- The rational with given digits and power of ten. -/
def ofDecimal (m : Nat) (power : Int) : Rat :=
  if 0 ≤ power then ((m * Nat.pow 10 power.toNat : Nat) : Rat)
  else (m : Rat) / (Nat.pow 10 (-power).toNat : Rat)

/-- The fewest digits, up to 17, that read back as the magnitude, and the power of ten of the last
one; of two such neighbours the nearer one. -/
def shortestFrom (q : Rat) : Nat → Nat → Nat × Int
  | 0, digits =>
    let (pair, power) := decimalNeighbours digits q
    (pair.headD 0, power)
  | more + 1, digits =>
    let (pair, power) := decimalNeighbours digits q
    match pair.find? fun m => roundMagnitude (ofDecimal m power) = q with
    | some m => (m, power)
    | none => shortestFrom q more (digits + 1)

/-- The digits of a number without trailing zeros, and how many were dropped. -/
def dropTrailing (digits : List Char) : List Char × Nat :=
  let kept := (digits.reverse.dropWhile (· == '0')).reverse
  (kept, digits.length - kept.length)

/-- A positive magnitude in its fewest digits: positional from `0.0001` up to below `10 ^ 16`, else
with an exponent of at least two digits. -/
def magnitudeText (q : Rat) : String :=
  let (m, power) := shortestFrom q 16 1
  let (digits, dropped) := dropTrailing (Nat.toDigits 10 m)
  let power := power + dropped
  let exponent : Int := power + digits.length - 1
  if -4 ≤ exponent ∧ exponent < 16 then
    if 0 ≤ power then
      String.ofList (digits ++ List.replicate power.toNat '0' ++ ['.', '0'])
    else if 0 ≤ exponent then
      String.ofList (digits.take (exponent.toNat + 1) ++ '.' :: digits.drop (exponent.toNat + 1))
    else
      String.ofList ('0' :: '.' :: List.replicate (-exponent - 1).toNat '0' ++ digits)
  else
    let fraction := if digits.length ≤ 1 then [] else '.' :: digits.drop 1
    let size := toString exponent.natAbs
    let size := if size.length < 2 then "0" ++ size else size
    String.ofList (digits.take 1 ++ fraction) ++ (if exponent < 0 then "e-" else "e+") ++ size

/-- The text of a double. -/
def text : Double → String
  | finite negative m =>
    (if negative then "-" else "") ++ if m = 0 then "0.0" else magnitudeText m
  | infinite negative => if negative then "-inf" else "inf"
  | notANumber => "nan"

end Double

/-! ## Reading -/

namespace Text

/-- The rational that unsigned decimal notation writes. -/
def unsignedDecimal? (cs : List Char) : Option Rat :=
  let mantissa := cs.takeWhile fun c => c != 'e' && c != 'E'
  let exponentPart := cs.drop mantissa.length
  let whole := mantissa.takeWhile (· != '.')
  let fractionPart := mantissa.drop whole.length
  let fraction := fractionPart.drop 1
  let digits := fraction.filter (· != '_')
  let mantissaOk := (isDigitRun whole && (fraction.isEmpty || isDigitRun fraction)) ||
    (whole.isEmpty && isDigitRun fraction)
  let exponent? : Option Int := match exponentPart with
    | [] => some 0
    | _ :: es =>
      let (negative, es) := takeSign es
      if isDigitRun es then some (if negative then -(digitsValue es : Int) else digitsValue es)
      else none
  match mantissaOk, exponent? with
  | true, some e =>
    let m := digitsValue (whole ++ digits)
    let e := e - digits.length
    if m = 0 then some 0
    else if 400 < e then some (Double.ofDecimal m 400)
    else if e < -400 - (whole.length + digits.length : Int) then some 0
    else some (Double.ofDecimal m e)
  | _, _ => none

end Text

/-- The double that a text writes: decimal notation, or a name of an infinity or of no number. -/
def Double.ofText? (text : String) : Option Double :=
  let (negative, cs) := Text.takeSign (Text.numberChars text)
  let word := String.ofList (cs.map Char.toLower)
  if word = "inf" || word = "infinity" then some (infinite negative)
  else if word = "nan" then some notANumber
  else (Text.unsignedDecimal? cs).map (ofMagnitude negative)

/-- The number that a double is as a scalar; a zero has no sign. -/
def Double.toNumber : Double → Number
  | finite negative m => .decimal (if negative then -m else m)
  | infinite _ => .infinite 1
  | notANumber => .undefined

end TensorEquations
