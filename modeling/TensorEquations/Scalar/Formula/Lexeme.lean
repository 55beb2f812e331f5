import TensorEquations.Scalar.Number
import TensorEquations.Text.Blank
import TensorEquations.Text.Letter
import TensorEquations.Text.Quoted

/-!
# Words of a formula

A formula is the text of a scalar: constructor calls, names, numbers and operators.

* `Lexeme` — the words: names, numbers, quoted texts, operators and punctuation.
* `readNumber`, `readQuoted`, `readLexeme` — one word at the start of a text, and what follows it.
* `lexemes` — all words of a text. Line ends count for nothing, a comment runs from its mark to the
  end, and neighbouring quoted texts are one text.
-/

namespace TensorEquations.Formula

/-- A binary operator. -/
inductive Operator where
  | plus
  | minus
  | times
  | divide
  | quotient
  | remainder
  | power
  | equal
  | unequal
  | less
  | lessEqual
  | greater
  | greaterEqual
  deriving DecidableEq, Repr

/-- What may stand in pairs around items. -/
inductive Bracket where
  | round
  | square
  deriving DecidableEq, Repr

/-- A word of a formula. -/
inductive Lexeme where
  | name (text : String)
  | number (value : Number)
  | quoted (text : String)
  | operator (op : Operator)
  | factorial (marks : Nat)
  | opening (bracket : Bracket)
  | closing (bracket : Bracket)
  | comma
  | equals
  | point
  deriving DecidableEq, Repr

/-! ## Numbers -/

/-- The digits at the start of a text, single underscores between them left out, and what follows. -/
def spanDigits (isDigit : Char → Bool) : List Char → List Char × List Char
  | [] => ([], [])
  | ['_'] => ([], ['_'])
  | '_' :: c :: cs =>
    if isDigit c then
      let (digits, rest) := spanDigits isDigit cs
      (c :: digits, rest)
    else ([], '_' :: c :: cs)
  | c :: cs =>
    if isDigit c then
      let (digits, rest) := spanDigits isDigit cs
      (c :: digits, rest)
    else ([], c :: cs)

/-- Digits that start with a digit. -/
def spanNumeral (cs : List Char) : List Char × List Char :=
  match cs with
  | c :: _ => if c.isDigit then spanDigits Char.isDigit cs else ([], cs)
  | [] => ([], [])

/-- The largest exponent of ten, in magnitude, that is read. -/
def exponentLimit : Nat := 100000

/-- The decimal `m · 10 ^ e`. An exponent beyond 400 is applied as a rounded power. -/
def decimalOf? (m : Nat) (e : Int) : Option Number :=
  if exponentLimit < e.natAbs then none
  else if e.natAbs ≤ 400 then some (.decimal (roundBinary ((m : Rat) * (10 : Rat) ^ e)))
  else
    let power := if 0 ≤ e then roundedPower 63 10 e.toNat
      else roundTo 63 (1 / roundedPower 68 10 (-e).toNat)
    some (.decimal (roundBinary (roundTo 63 m * power)))

/-- The exponent at the start of a text, if there is one, and what follows. -/
def spanExponent (cs : List Char) : Option (Int × List Char) :=
  match cs with
  | mark :: cs =>
    if mark != 'e' && mark != 'E' then none else
    let (negative, cs) : Bool × List Char := match cs with
      | '-' :: cs => (true, cs)
      | '+' :: cs => (false, cs)
      | cs => (false, cs)
    match spanNumeral cs with
    | ([], _) => none
    | (digits, rest) =>
      let n : Int := Text.digitsValue digits
      some (if negative then -n else n, rest)
  | [] => none

/-- Digits in another base behind a zero and the letter of the base. -/
def spanBased? : List Char → Option (Nat × List Char)
  | '0' :: letter :: cs =>
    let read (base : Nat) (isDigit : Char → Bool) : Option (Nat × List Char) :=
      match spanDigits isDigit cs with
      | ([], _) => none
      | (digits, rest) =>
        some (digits.foldl (fun n c => base * n + (Text.hexValue? c).getD 0) 0, rest)
    match letter.toLower with
    | 'x' => read 16 fun c => (Text.hexValue? c).isSome
    | 'o' => read 8 Text.isOctal
    | 'b' => read 2 fun c => c = '0' || c = '1'
    | _ => none
  | _ => none

/-- The number at the start of a text, and what follows. With a point or an exponent it is a decimal;
an integer does not start with a zero unless it has no other digits. -/
def readNumber (cs : List Char) : Option (Number × List Char) :=
  match spanBased? cs with
  | some (n, rest) => some (.exact n, rest)
  | none =>
    let (whole, rest) := spanNumeral cs
    let (fraction, rest, pointed) : List Char × List Char × Bool := match rest with
      | '.' :: rest =>
        let (fraction, rest) := spanNumeral rest
        (fraction, rest, true)
      | rest => ([], rest, false)
    let value (e : Int) : Option Number :=
      decimalOf? (Text.digitsValue (whole ++ fraction)) (e - fraction.length)
    if whole.isEmpty && fraction.isEmpty then none else
    match spanExponent rest with
    | some (e, rest) => (value e).map fun c => (c, rest)
    | none =>
      if pointed then (value 0).map fun c => (c, rest)
      else if Text.digitLimit < whole.length then none
      else if whole.head? = some '0' && whole.any (· != '0') then none
      else some (.exact (Text.digitsValue whole : Nat), rest)

/-! ## Quoted texts -/

/-- What stands before the closing mark of a quoted text, and what follows. -/
def spanQuoted (mark : List Char) : List Char → Option (List Char × List Char)
  | [] => none
  | ['\\'] => none
  | '\\' :: c :: cs => (spanQuoted mark cs).map fun (text, rest) => ('\\' :: c :: text, rest)
  | c :: cs =>
    if mark.isPrefixOf (c :: cs) then some ([], (c :: cs).drop mark.length)
    else (spanQuoted mark cs).map fun (text, rest) => (c :: text, rest)

/-- The quoted text at the start of a text, between single or triple marks, and what follows. In raw
text a backslash stands for itself. -/
def readQuoted (raw : Bool) : List Char → Option (String × List Char)
  | c :: cs =>
    let triple := [c, c, c]
    let mark := if triple.isPrefixOf (c :: cs) then triple else [c]
    (spanQuoted mark ((c :: cs).drop mark.length)).bind fun (text, rest) =>
      (if raw then some text else Text.unescape text).map fun text => (String.ofList text, rest)
  | [] => none

/-- Whether a character is a quotation mark. -/
def isMark (c : Char) : Bool := c = '\'' || c = '"'

/-! ## Words -/

/-- The operator or punctuation at the start of a text, and what follows. -/
def readSign : List Char → Option (Lexeme × List Char)
  | '*' :: '*' :: cs => some (.operator .power, cs)
  | '/' :: '/' :: cs => some (.operator .quotient, cs)
  | '=' :: '=' :: cs => some (.operator .equal, cs)
  | '!' :: '=' :: cs => some (.operator .unequal, cs)
  | '<' :: '=' :: cs => some (.operator .lessEqual, cs)
  | '>' :: '=' :: cs => some (.operator .greaterEqual, cs)
  | '+' :: cs => some (.operator .plus, cs)
  | '-' :: cs => some (.operator .minus, cs)
  | '*' :: cs => some (.operator .times, cs)
  | '/' :: cs => some (.operator .divide, cs)
  | '%' :: cs => some (.operator .remainder, cs)
  | '^' :: cs => some (.operator .power, cs)
  | '<' :: cs => some (.operator .less, cs)
  | '>' :: cs => some (.operator .greater, cs)
  | '!' :: cs => some (.factorial 1, cs)
  | '(' :: cs => some (.opening .round, cs)
  | ')' :: cs => some (.closing .round, cs)
  | '[' :: cs => some (.opening .square, cs)
  | ']' :: cs => some (.closing .square, cs)
  | ',' :: cs => some (.comma, cs)
  | '=' :: cs => some (.equals, cs)
  | '.' :: cs => some (.point, cs)
  | _ => none

/-- The words that one word at the start of a text stands for, and what follows. A letter in front of
a quotation mark says how the quoted text is read, and a number with a letter for the imaginary unit
is a product. -/
def readLexeme (cs : List Char) : Option (List Lexeme × List Char) :=
  match cs with
  | [] => none
  | c :: rest =>
    if Text.isNameStart c then
      let (name, rest) := (cs.takeWhile Text.isNamePart, cs.dropWhile Text.isNamePart)
      let style := String.ofList (name.map Char.toLower)
      if rest.head?.any isMark && ["u", "r"].contains style then
        (readQuoted (style == "r") rest).map fun (text, rest) => ([.quoted text], rest)
      else some ([.name (String.ofList name)], rest)
    else if isMark c then
      (readQuoted false cs).map fun (text, rest) => ([.quoted text], rest)
    else if c.isDigit || (c = '.' && rest.head?.any Char.isDigit) then
      (readNumber cs).map fun (n, rest) =>
        match rest with
        | 'j' :: rest => ([.number n, .operator .times, .name "I"], rest)
        | 'J' :: rest => ([.number n, .operator .times, .name "I"], rest)
        | rest => ([.number n], rest)
    else (readSign cs).map fun (word, rest) => ([word], rest)

/-- The words of a text, at most `bound` of them and the spaces between. -/
def lexemesFrom : Nat → List Char → Option (List Lexeme)
  | _, [] => some []
  | 0, _ :: _ => none
  | bound + 1, c :: cs =>
    if c = ' ' || c = '\t' || c = '\x0c' then lexemesFrom bound cs
    else if c = '#' then some []
    else do
      let (words, rest) ← readLexeme (c :: cs)
      return words ++ (← lexemesFrom bound rest)

/-- Neighbouring quoted texts, and neighbouring marks of factorials, joined. -/
def joinLexemes : List Lexeme → List Lexeme
  | [] => []
  | word :: words =>
    match word, joinLexemes words with
    | .quoted s, .quoted t :: rest => .quoted (s ++ t) :: rest
    | .factorial m, .factorial n :: rest => .factorial (m + n) :: rest
    | word, rest => word :: rest

/-- The words of a formula. -/
def lexemes (text : String) : Option (List Lexeme) :=
  let cs := Text.trimChars (text.toList.filter (· != '\n'))
  (lexemesFrom cs.length cs).map joinLexemes

end TensorEquations.Formula
