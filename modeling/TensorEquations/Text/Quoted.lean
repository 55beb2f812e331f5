import TensorEquations.Text.CharacterName
import TensorEquations.Text.Printable

/-!
# Quoted text

* `quoteMark` — single quotes, or double quotes around a text with single quotes only.
* `quote` — a text in quotes, with escapes for the quote, the backslash and what is not printable.
* `unescape` — the text that the characters between the quotes write.
-/

namespace TensorEquations.Text

/-- The mark around a quoted text. -/
def quoteMark (cs : List Char) : Char :=
  if cs.contains '\'' && !cs.contains '"' then '"' else '\''

/-- The last `width` hexadecimal digits of a number. -/
def hexDigits (width n : Nat) : List Char :=
  let digits := Nat.toDigits 16 n
  List.replicate (width - digits.length) '0' ++ digits

/-- A character inside quotes. -/
def escapeChar (mark c : Char) : List Char :=
  if c = mark || c = '\\' then ['\\', c]
  else if c = '\n' then ['\\', 'n']
  else if c = '\r' then ['\\', 'r']
  else if c = '\t' then ['\\', 't']
  else if isPrintable c then [c]
  else if c.toNat < 0x100 then '\\' :: 'x' :: hexDigits 2 c.toNat
  else if c.toNat < 0x10000 then '\\' :: 'u' :: hexDigits 4 c.toNat
  else '\\' :: 'U' :: hexDigits 8 c.toNat

/-- A text in quotes. -/
def quote (text : String) : String :=
  let cs := text.toList
  let mark := quoteMark cs
  String.ofList (mark :: cs.flatMap (escapeChar mark) ++ [mark])

/-- The value of a hexadecimal digit. -/
def hexValue? (c : Char) : Option Nat :=
  if '0' ≤ c && c ≤ '9' then some (c.toNat - '0'.toNat)
  else if 'a' ≤ c && c ≤ 'f' then some (c.toNat - 'a'.toNat + 10)
  else if 'A' ≤ c && c ≤ 'F' then some (c.toNat - 'A'.toNat + 10)
  else none

/-- The number that hexadecimal digits write. -/
def hexNumber? (cs : List Char) : Option Nat :=
  cs.foldl (fun n c => n.bind fun n => (hexValue? c).map (16 * n + ·)) (some 0)

/-- The character with a given code point. -/
def charOfNat? (n : Nat) : Option Char := if n.isValidChar then some (Char.ofNat n) else none

/-- The character whose code point hexadecimal digits write, in front of what is left. -/
def hexEscape? (digits rest : List Char) : Option (List Char × List Char) :=
  ((hexNumber? digits).bind charOfNat?).map fun c => ([c], rest)

/-- Whether a character is an octal digit. -/
def isOctal (c : Char) : Bool := '0' ≤ c && c ≤ '7'

/-- The number that octal digits write. -/
def octalNumber (cs : List Char) : Nat := cs.foldl (fun n c => 8 * n + (c.toNat - '0'.toNat)) 0

/-- The character that a letter behind a backslash stands for. -/
def controlEscape? : Char → Option Char
  | 'a' => some '\x07'
  | 'b' => some '\x08'
  | 'f' => some '\x0c'
  | 'n' => some '\n'
  | 'r' => some '\r'
  | 't' => some '\t'
  | 'v' => some '\x0b'
  | '\\' => some '\\'
  | '\'' => some '\''
  | '"' => some '"'
  | _ => none

/-- The text that an escape stands for and what is left behind it, from the character behind the
backslash on: a control character, a code point in hexadecimal or octal digits, or a name in braces.
Any other escape stands for itself. -/
def readEscape? : List Char → Option (List Char × List Char)
  | 'x' :: a :: b :: cs => hexEscape? [a, b] cs
  | 'u' :: a :: b :: c :: d :: cs => hexEscape? [a, b, c, d] cs
  | 'U' :: a :: b :: c :: d :: e :: f :: g :: h :: cs => hexEscape? [a, b, c, d, e, f, g, h] cs
  | 'N' :: '\x7b' :: cs =>
    let name := cs.takeWhile (· != '\x7d')
    (namedCharacter? (String.ofList name)).map fun c => ([c], cs.drop (name.length + 1))
  | [] => none
  | c :: cs =>
    if ['x', 'u', 'U', 'N'].contains c then none else
    match controlEscape? c with
    | some d => some ([d], cs)
    | none =>
      if isOctal c then
        let digits := c :: (cs.take 2).takeWhile isOctal
        some ([Char.ofNat (octalNumber digits)], cs.drop (digits.length - 1))
      else some (['\\', c], cs)

/-- The text that at most `bound` characters and escapes write. -/
def unescapeFrom : Nat → List Char → Option (List Char)
  | _, [] => some []
  | 0, _ :: _ => none
  | bound + 1, c :: cs =>
    if c = '\\' then do
      let (text, rest) ← readEscape? cs
      return text ++ (← unescapeFrom bound rest)
    else (unescapeFrom bound cs).map (c :: ·)

/-- The text that the characters between the quotes write. -/
def unescape (cs : List Char) : Option (List Char) := unescapeFrom cs.length cs

end TensorEquations.Text
