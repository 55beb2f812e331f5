import TensorEquations.Text.Digit

/-!
# Tokens of the expression language

* `Place`, `Token` — a token with the line and the column at which it starts.
* `Numeral` — the digits of a number as written, with its value.
* `Pending` — a token that may still grow; every token is as long as it can be.
* `scan` — the tokens of a text up to the first character that starts none.
-/

namespace TensorEquations

/-- A line and a column, both counted from one. -/
structure Place where
  line : Nat
  column : Nat
  deriving DecidableEq, Repr

/-- The place of the next character. -/
def Place.after (p : Place) (c : Char) : Place :=
  if c = '\n' then ⟨p.line + 1, 1⟩ else ⟨p.line, p.column + 1⟩

/-- A number as written: the digits before the point, and those behind it if there is a point. -/
structure Numeral where
  whole : List Char
  fraction : Option (List Char)
  deriving DecidableEq, Repr

namespace Numeral

/-- The digits behind the point. -/
def places (n : Numeral) : List Char := n.fraction.getD []

/-- The number that is written. -/
def value (n : Numeral) : Rat :=
  (Text.digitsValue (n.whole ++ n.places) : Rat) / (Nat.pow 10 n.places.length : Rat)

/-- The number of digits of the longer part. -/
def width (n : Numeral) : Nat := max n.whole.length n.places.length

end Numeral

/-- The kinds of tokens. -/
inductive TokenKind where
  | number (n : Numeral)
  | name (text : String)
  | plus
  | minus
  | star
  | slash
  | equals
  | comma
  | separator
  | openParen
  | closeParen
  | openBrace
  | closeBrace
  deriving DecidableEq, Repr

/-- A token of a text. -/
structure Token where
  kind : TokenKind
  place : Place
  deriving DecidableEq, Repr

def isNameFirst (c : Char) : Bool := c.isAlpha || c = '_'

def isNameLater (c : Char) : Bool := c.isAlphanum || c = '_' || c = '\''

/-- The white space between tokens. -/
def isGap (c : Char) : Bool := c = ' ' || c = '\t' || c = '\x0c' || c = '\r' || c = '\n'

/-- The token that a single character is. -/
def punctuation? (c : Char) : Option TokenKind :=
  match c with
  | '+' => some .plus
  | '-' => some .minus
  | '*' => some .star
  | '/' => some .slash
  | '=' => some .equals
  | ',' => some .comma
  | ':' => some .separator
  | ';' => some .separator
  | '(' => some .openParen
  | ')' => some .closeParen
  | '{' => some .openBrace
  | '}' => some .closeBrace
  | _ => none

/-- A token that may still grow, its characters in reverse order. A point alone is no token. -/
inductive Pending where
  | name (text : List Char)
  | whole (digits : List Char)
  | fraction (digits places : List Char)
  | point
  deriving DecidableEq, Repr

namespace Pending

/-- The token with one more character, if that still belongs to it. -/
def grow (p : Pending) (c : Char) : Option Pending :=
  match p with
  | name text => if isNameLater c then some (name (c :: text)) else none
  | whole digits =>
    if Text.isDecimalDigit c then some (whole (c :: digits))
    else if c = '.' then some (fraction digits []) else none
  | fraction digits places =>
    if Text.isDecimalDigit c then some (fraction digits (c :: places)) else none
  | point => if Text.isDecimalDigit c then some (fraction [] [c]) else none

/-- The finished token. -/
def kind? (p : Pending) : Option TokenKind :=
  match p with
  | name text => some (.name (String.ofList text.reverse))
  | whole digits => some (.number ⟨digits.reverse, none⟩)
  | fraction digits places => some (.number ⟨digits.reverse, some places.reverse⟩)
  | point => none

/-- The token that a character begins and that may grow. -/
def start? (c : Char) : Option Pending :=
  if isNameFirst c then some (name [c])
  else if Text.isDecimalDigit c then some (whole [c])
  else if c = '.' then some point
  else none

end Pending

/-- The tokens of a text, and the place of the character that starts no token, if there is one. -/
structure Scan where
  tokens : List Token
  stop : Option Place
  deriving DecidableEq, Repr

/-- One token more in front. -/
def Scan.cons (t : Token) (s : Scan) : Scan := ⟨t :: s.tokens, s.stop⟩

/-- The tokens from a place on; `pending` is the token that is being read, with its start. -/
def scanFrom (pending : Option (Pending × Place)) (place : Place) : List Char → Scan
  | [] =>
    match pending with
    | none => ⟨[], none⟩
    | some (p, start) =>
      match p.kind? with
      | some kind => ⟨[⟨kind, start⟩], none⟩
      | none => ⟨[], some start⟩
  | c :: cs =>
    let opening := fun (_ : Unit) =>
      if isGap c then scanFrom none (place.after c) cs
      else match punctuation? c with
        | some kind => (scanFrom none (place.after c) cs).cons ⟨kind, place⟩
        | none =>
          match Pending.start? c with
          | some p => scanFrom (some (p, place)) (place.after c) cs
          | none => ⟨[], some place⟩
    match pending with
    | none => opening ()
    | some (p, start) =>
      match p.grow c with
      | some p => scanFrom (some (p, start)) (place.after c) cs
      | none =>
        match p.kind? with
        | some kind => (opening ()).cons ⟨kind, start⟩
        | none => ⟨[], some start⟩

/-- The tokens of a text. -/
def scan (text : String) : Scan := scanFrom none ⟨1, 1⟩ text.toList

end TensorEquations
