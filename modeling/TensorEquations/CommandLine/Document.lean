import TensorEquations.Text.Quoted

/-!
# Documents

* `Document` — texts, lists and objects.
* `Document.render` — a document in JSON: two more spaces at each level, the fields in their order,
  and nothing but ASCII.
-/

namespace TensorEquations.CommandLine

/-- Texts, lists and objects. -/
inductive Document where
  | text (s : String)
  | list (items : List Document)
  | object (fields : List (String × Document))

namespace Document

/-- A unit of UTF-16 as an escape. -/
def escapeUnit (n : Nat) : List Char := '\\' :: 'u' :: Text.hexDigits 4 n

/-- A character inside quotes; beyond ASCII it is one or two escaped units. -/
def escape (c : Char) : List Char :=
  let n := c.toNat
  if c = '"' then ['\\', '"']
  else if c = '\\' then ['\\', '\\']
  else if c = '\n' then ['\\', 'n']
  else if c = '\r' then ['\\', 'r']
  else if c = '\t' then ['\\', 't']
  else if n = 8 then ['\\', 'b']
  else if n = 12 then ['\\', 'f']
  else if 32 ≤ n && n < 127 then [c]
  else if n < 0x10000 then escapeUnit n
  else
    escapeUnit (0xD800 + (n - 0x10000) / 0x400) ++ escapeUnit (0xDC00 + (n - 0x10000) % 0x400)

/-- A text in quotes. -/
def quoted (s : String) : String := "\"" ++ String.ofList (s.toList.flatMap escape) ++ "\""

/-- A new line at a level. -/
def newLine (level : Nat) : String := "\n" ++ String.ofList (List.replicate (2 * level) ' ')

/-- Parts between brackets, one on a line. -/
def enclose (left right : String) (level : Nat) (parts : List String) : String :=
  if parts.isEmpty then left ++ right
  else
    left ++ newLine (level + 1) ++ ("," ++ newLine (level + 1)).intercalate parts ++
      newLine level ++ right

mutual

/-- A document in JSON at a level. -/
def renderAt (level : Nat) : Document → String
  | text s => quoted s
  | list items => enclose "[" "]" level (renderItems (level + 1) items)
  | object fields => enclose "\x7b" "\x7d" level (renderFields (level + 1) fields)

def renderItems (level : Nat) : List Document → List String
  | [] => []
  | d :: ds => d.renderAt level :: renderItems level ds

def renderFields (level : Nat) : List (String × Document) → List String
  | [] => []
  | (name, d) :: ds => (quoted name ++ ": " ++ d.renderAt level) :: renderFields level ds

end

/-- A document in JSON. -/
def render (d : Document) : String := d.renderAt 0

end Document

end TensorEquations.CommandLine
