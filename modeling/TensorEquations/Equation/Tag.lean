import TensorEquations.Coefficient.Key
import TensorEquations.Tensor.Error
import TensorEquations.Text.Blank
import TensorEquations.Text.Digit
import TensorEquations.Text.Location

/-!
# Coefficient tags

The source of an equation is an expression with tags `#<id:l:ld:r:rd:indices>` in it.

* `CoefficientTag` — one tag: the key of the coefficient, the text behind the fifth colon and the
  offset.
* `ParsedEquation` — the body with every tag replaced by a call, and the tags in order.
* `TagError`, `parseEquation` — reading a source; what is wrong with a tag and where.
-/

namespace TensorEquations

/-- A tag of a source text. -/
structure CoefficientTag where
  key : CoefficientKey
  indices : String
  offset : Nat
  deriving DecidableEq, Repr

/-- The call that a tag stands for: the coefficient with its labels renamed to those of the tag. -/
def renameCall (key : CoefficientKey) (indices : String) : String :=
  s!"RenameIndices({key.name}, {labelSet key.labels}, {indices})"

/-- A source text whose tags have been read. -/
structure ParsedEquation where
  body : String
  tags : List CoefficientTag
  deriving DecidableEq, Repr

namespace ParsedEquation

/-- There is nothing to solve without a tag. -/
def isEmpty (p : ParsedEquation) : Bool := p.tags.isEmpty || (Text.trimBlank p.body).isEmpty

/-- The program that solves the body for its unknowns. -/
def expression (p : ParsedEquation) : String :=
  "subst = HomogeneousSystem(" ++ p.body ++ "):"

end ParsedEquation

/-- What is wrong with a tag. -/
inductive TagError where
  | unterminated
  | tooFewFields
  | badNumber (field text : String)
  | tooManyDigits (digits : Nat)
  deriving DecidableEq, Repr

def TagError.message : TagError → String
  | unterminated => "Unterminated coefficient tag"
  | tooFewFields => "Coefficient tag must read #<id:l:ld:r:rd:indices>"
  | badNumber field text =>
    "Coefficient field '" ++ field ++ "' must be a non-negative integer, got '" ++ text ++ "'"
  | tooManyDigits digits => Text.digitLimitMessage digits

/-! ## Reading a tag -/

/-- A field of a tag with its offset. -/
structure TagField where
  text : List Char
  offset : Nat
  deriving DecidableEq, Repr

/-- The fields read so far, in reverse order, and the characters of the current one, in reverse
order too. At most five colons separate fields. -/
structure FieldState where
  fields : List TagField
  current : List Char
  start : Nat

/-- The characters of a tag up to its end: the fields and the text behind the last colon, with what
follows the tag and its offset. A tag that is cut off by the end or by `//` has none. -/
def readFields (s : FieldState) (offset : Nat) :
    List Char → Option (List TagField × List Char × List Char × Nat)
  | [] => none
  | '>' :: cs => some (s.fields.reverse, s.current.reverse, cs, offset + 1)
  | '/' :: '/' :: _ => none
  | ':' :: cs =>
    if s.fields.length < 5 then
      readFields ⟨⟨s.current.reverse, s.start⟩ :: s.fields, [], offset + 1⟩ (offset + 1) cs
    else readFields ⟨s.fields, ':' :: s.current, s.start⟩ (offset + 1) cs
  | c :: cs => readFields ⟨s.fields, c :: s.current, s.start⟩ (offset + 1) cs

/-- The size that a field gives. -/
def readSize (label : String) (f : TagField) : Except (TagError × Nat) Int :=
  let digits := Text.trimChars f.text
  if digits.isEmpty || !digits.all Char.isDigit then
    .error (.badNumber label (String.ofList f.text), f.offset)
  else if Text.digitLimit < digits.length then .error (.tooManyDigits digits.length, f.offset)
  else .ok (Text.digitsValue digits)

/-- The tag of its fields. -/
def readTag (fields : List TagField) (indices : List Char) (start : Nat) :
    Except (TagError × Nat) CoefficientTag :=
  match fields with
  | [id, l, ld, r, rd] => do
    let left ← readSize "l" l
    let leftDerivatives ← readSize "ld" ld
    let right ← readSize "r" r
    let rightDerivatives ← readSize "rd" rd
    let shape : BlockShape := ⟨left, leftDerivatives, right, rightDerivatives⟩
    return { key := .canonical shape (String.ofList (Text.trimChars id.text))
             indices := String.ofList indices
             offset := start }
  | _ => .error (.tooFewFields, start)

theorem length_rest_of_readFields {s : FieldState} {offset : Nat} {cs : List Char}
    {fields : List TagField} {indices rest : List Char} {next : Nat}
    (h : readFields s offset cs = some (fields, indices, rest, next)) : rest.length < cs.length := by
  fun_induction readFields s offset cs with
  | case1 => simp at h
  | case2 => simp_all
  | case3 => simp at h
  | case4 _ _ _ _ ih => exact Nat.lt_succ_of_lt (ih h)
  | case5 _ _ _ _ ih => exact Nat.lt_succ_of_lt (ih h)
  | case6 _ _ _ _ _ _ _ ih => exact Nat.lt_succ_of_lt (ih h)

/-! ## Reading a source -/

/-- A piece of a source: a character that stands for itself, or a tag. -/
inductive Piece where
  | plain (c : Char)
  | tag (t : CoefficientTag)
  deriving DecidableEq, Repr

/-- The pieces of a source from an offset on; `//` outside tags ends it. -/
def readPieces (offset : Nat) (cs : List Char) : Except (TagError × Nat) (List Piece) :=
  match cs with
  | [] => .ok []
  | '/' :: '/' :: _ => .ok []
  | '#' :: '<' :: rest =>
    match _h : readFields ⟨[], [], offset + 2⟩ (offset + 2) rest with
    | none => .error (.unterminated, offset)
    | some (fields, indices, rest', next) => do
      let tag ← readTag fields indices offset
      let pieces ← readPieces next rest'
      return .tag tag :: pieces
  | c :: rest => do
    let pieces ← readPieces (offset + 1) rest
    return .plain c :: pieces
termination_by cs.length
decreasing_by
  · have := length_rest_of_readFields _h
    simp only [List.length_cons]
    omega
  · simp

/-- The characters that a piece puts into the body. -/
def Piece.chars : Piece → List Char
  | plain c => [c]
  | tag t => (renameCall t.key t.indices).toList

/-- The tag of a piece. -/
def Piece.tag? : Piece → Option CoefficientTag
  | plain _ => none
  | tag t => some t

/-- The body and the tags of a source, or what is wrong with a tag and at which offset. -/
def parseEquation (code : String) : Except (TagError × Nat) ParsedEquation := do
  let pieces ← readPieces 0 code.toList
  return { body := String.ofList (pieces.flatMap Piece.chars)
           tags := pieces.filterMap Piece.tag? }

end TensorEquations
