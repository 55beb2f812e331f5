import TensorEquations.Text.Digit

/-!
# Integers in a text

* `numberChars` — a text without the blanks around it, its digits in ASCII.
* `takeSign`, `isDigitRun` — the parts of a written number.
* `readInteger` — the integer that a text writes, or why it writes none.
-/

namespace TensorEquations.Text

/-- Blanks that may stand around a number. -/
def isNumberBlank (c : Char) : Bool :=
  let n := c.toNat
  (9 ≤ n && n ≤ 13) || n == 32 || n == 0x85 || n == 0xA0 || n == 0x1680 ||
    (0x2000 ≤ n && n ≤ 0x200A) || n == 0x2028 || n == 0x2029 || n == 0x202F || n == 0x205F ||
    n == 0x3000

/-- A number without the blanks around it, its digits in ASCII. -/
def numberChars (text : String) : List Char :=
  let cs := (text.toList.dropWhile isNumberBlank).reverse.dropWhile isNumberBlank
  cs.reverse.map fun c =>
    match digitValue? c with
    | some d => Char.ofNat ('0'.toNat + d)
    | none => c

/-- Whether the characters are ASCII digits with single underscores between them, at least one. -/
def isDigitRun : List Char → Bool
  | [] => false
  | [c] => c.isDigit
  | c :: '_' :: cs => c.isDigit && isDigitRun cs
  | c :: cs => c.isDigit && isDigitRun cs

/-- A sign and what follows it. -/
def takeSign : List Char → Bool × List Char
  | '-' :: cs => (true, cs)
  | '+' :: cs => (false, cs)
  | cs => (false, cs)

/-- Why a text writes no integer. -/
inductive IntegerError where
  | notWritten
  | tooManyDigits (digits : Nat)
  deriving DecidableEq, Repr

/-- The integer that a text writes: blanks around it, a sign, digits of any script and single
underscores between digits are allowed. -/
def readInteger (text : String) : Except IntegerError Int :=
  let (negative, cs) := takeSign (numberChars text)
  let digits := (cs.filter Char.isDigit).length
  if !isDigitRun cs then .error .notWritten
  else if digitLimit < digits then .error (.tooManyDigits digits)
  else
    let n : Int := digitsValue cs
    .ok (if negative then -n else n)

end TensorEquations.Text
