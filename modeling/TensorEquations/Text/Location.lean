/-!
# Locations in a text

* `Location` — a line number, a column number and the text of the line, each of which may be
  missing.
* `Location.ofOffset` — the location of an offset; offsets outside the text are moved to its ends.
* `Location.suffix` — what a message says about a location.
-/

namespace TensorEquations.Text

/-- Where in a text something was found. Lines and columns count from one. -/
structure Location where
  line : Option Int
  column : Option Int
  lineText : Option String
  deriving DecidableEq, Repr

namespace Location

/-- No location. -/
def unknown : Location := ⟨none, none, none⟩

/-- The characters up to the first newline. -/
def upToNewline (cs : List Char) : List Char := cs.takeWhile (· != '\n')

/-- The location of the character at `offset`, counted from zero; only `\n` ends a line. -/
def ofOffset (text : String) (offset : Int) : Location :=
  let cs := text.toList
  let position := (min (max offset 0) cs.length).toNat
  let before := cs.take position
  let lineStart := (upToNewline before.reverse).reverse
  { line := some ((before.count '\n' : Int) + 1)
    column := some ((lineStart.length : Int) + 1)
    lineText := some (String.ofList (lineStart ++ upToNewline (cs.drop position))) }

/-- The line and the column in words, and below them the line with a mark under the column. -/
def suffix (l : Location) : String :=
  let words := (l.line.map fun n => s!"line {n}").toList ++ (l.column.map fun n => s!"col {n}").toList
  if words.isEmpty then "" else
  let place := " (" ++ ", ".intercalate words ++ ")"
  match l.lineText, l.column with
  | some text, some column =>
    if column < 1 then place
    else place ++ "\n  " ++ text ++ "\n  " ++ String.ofList (List.replicate (column.toNat - 1) ' ') ++ "^"
  | _, _ => place

end Location

end TensorEquations.Text
