/-!
# Lines

* `splitLines` — the lines of a text; every line boundary of Unicode ends a line, `\r\n` is one
  boundary, and a boundary at the end of the text opens no further line.
* `unifyLineBreaks` — `\r\n` and `\r` become `\n`.
* `stripComments` — every line cut at its first `//`, the lines joined by `\n`.
-/

namespace TensorEquations.Text

/-- The characters that end a line. -/
def isLineBreak (c : Char) : Bool :=
  let n := c.toNat
  (10 ≤ n && n ≤ 13) || (28 ≤ n && n ≤ 30) || n == 0x85 || n == 0x2028 || n == 0x2029

/-- The lines of `cs`, `line` being the reversed start of the first one. -/
def splitLinesFrom (line : List Char) : List Char → List (List Char)
  | [] => if line.isEmpty then [] else [line.reverse]
  | '\r' :: '\n' :: cs => line.reverse :: splitLinesFrom [] cs
  | c :: cs =>
    if isLineBreak c then line.reverse :: splitLinesFrom [] cs else splitLinesFrom (c :: line) cs

/-- The lines of a text. -/
def splitLines (text : String) : List String :=
  (splitLinesFrom [] text.toList).map String.ofList

/-- Every line break of the three kinds in use becomes `\n`. -/
def unifyLineBreaks : List Char → List Char
  | [] => []
  | '\r' :: '\n' :: cs => '\n' :: unifyLineBreaks cs
  | '\r' :: cs => '\n' :: unifyLineBreaks cs
  | c :: cs => c :: unifyLineBreaks cs

/-- The characters before the first `//`. -/
def beforeComment : List Char → List Char
  | '/' :: '/' :: _ => []
  | c :: cs => c :: beforeComment cs
  | [] => []

/-- A text without its comments: each line is cut at its first `//`, and the lines are joined by
`\n`. -/
def stripComments (text : String) : String :=
  "\n".intercalate ((splitLinesFrom [] text.toList).map fun line =>
    String.ofList (beforeComment line))

end TensorEquations.Text
