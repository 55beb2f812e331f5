import TensorEquations.Expression.Syntax
import TensorEquations.Text.Lines
import TensorEquations.Text.Location

/-!
# Parsing

The parser looks at each token once. Its state is the stack of unfinished operations, brackets and
calls, and what may come next; a token that fits nothing is an error at that token.

* `Frame`, `Mode`, `ParserState` — the state.
* `ParserState.next` — one token.
* `parseTokens` — all tokens, or the place of the first one that cannot continue; at the end of the
  input that is the place of the last token.
* `parse` — a text without comments.

Operations of one strength associate to the left; `*` and `/` bind more tightly than `+` and `-`,
and a sign binds more tightly than both.
-/

namespace TensorEquations

/-- Something that waits for an operand or for its closing bracket. -/
inductive Frame where
  | neg
  | left (op : Operation) (operand : Expression)
  | paren
  | call (function : String) (place : Place) (arguments : List Expression)

/-- What may come next. A name may still become a call, and at the start of a statement the target
of an assignment. -/
inductive Mode where
  | statement
  | operand
  | arguments
  | named (text : String) (place : Place) (first : Bool)
  | labels (labels : List String)
  | after (e : Expression)

/-- A program read up to some token: the finished statements, the target of the current one, the
unfinished parts, innermost first, and what may come next. -/
structure ParserState where
  finished : List Statement
  target : Option String
  frames : List Frame
  mode : Mode

namespace Operation

/-- How tightly an operation binds. -/
def strength : Operation → Nat
  | add => 1
  | sub => 1
  | mul => 2
  | div => 2

end Operation

namespace Frame

/-- How tightly a frame holds its operand; brackets hold nothing. -/
def strength : Frame → Nat
  | neg => 3
  | left op _ => op.strength
  | paren => 0
  | call _ _ _ => 0

end Frame

namespace ParserState

/-- The state before the first token. -/
def initial : ParserState := ⟨[], none, [], .statement⟩

/-- Finishes the operations on top of the stack that bind at least as tightly as `strength`. -/
def reduce (strength : Nat) (e : Expression) : List Frame → Expression × List Frame
  | [] => (e, [])
  | frame :: frames =>
    if frame.strength < strength then (e, frame :: frames) else
    match frame with
    | .neg => reduce strength (.neg e) frames
    | .left op l => reduce strength (.binary op l e) frames
    | frame => (e, frame :: frames)

/-- The operation that a token is. -/
def operation? : TokenKind → Option Operation
  | .plus => some .add
  | .minus => some .sub
  | .star => some .mul
  | .slash => some .div
  | _ => none

/-- The statement of an expression. -/
def statement (target : Option String) (e : Expression) : Statement :=
  match target with
  | some name => .assign name e
  | none => .value e

/-- A token where an operand is expected; `first` tells whether it starts a statement. -/
def beforeOperand (s : ParserState) (first : Bool) (t : Token) : Option ParserState :=
  match t.kind with
  | .number n => some { s with mode := .after (.number n) }
  | .name text => some { s with mode := .named text t.place first }
  | .plus => some { s with mode := .operand }
  | .minus => some { s with frames := .neg :: s.frames, mode := .operand }
  | .openParen => some { s with frames := .paren :: s.frames, mode := .operand }
  | .openBrace => some { s with mode := .labels [] }
  | _ => none

/-- A token after a complete operand. -/
def afterOperand (s : ParserState) (e : Expression) (t : Token) : Option ParserState :=
  match operation? t.kind with
  | some op =>
    let (e, frames) := reduce op.strength e s.frames
    some { s with frames := .left op e :: frames, mode := .operand }
  | none =>
    match t.kind, reduce 1 e s.frames with
    | .closeParen, (e, .paren :: frames) => some { s with frames := frames, mode := .after e }
    | .closeParen, (e, .call f p es :: frames) =>
      some { s with frames := frames, mode := .after (.call f p (es ++ [e])) }
    | .comma, (e, .call f p es :: frames) =>
      some { s with frames := .call f p (es ++ [e]) :: frames, mode := .operand }
    | .separator, (e, []) =>
      some ⟨s.finished ++ [statement s.target e], none, [], .statement⟩
    | _, _ => none

/-- One token. -/
def next (s : ParserState) (t : Token) : Option ParserState :=
  match s.mode with
  | .statement =>
    match t.kind with
    | .separator => some s
    | _ => s.beforeOperand true t
  | .operand => s.beforeOperand false t
  | .arguments =>
    match t.kind, s.frames with
    | .closeParen, .call f p es :: frames =>
      some { s with frames := frames, mode := .after (.call f p es) }
    | _, _ => s.beforeOperand false t
  | .named text place first =>
    match t.kind with
    | .openParen => some { s with frames := .call text place [] :: s.frames, mode := .arguments }
    | .equals =>
      if first then some { s with target := some text, mode := .operand } else none
    | _ => s.afterOperand (.name text place) t
  | .labels labels =>
    match t.kind with
    | .name text => some { s with mode := .labels (labels ++ [text]) }
    | .closeBrace => some { s with mode := .after (.labels labels) }
    | _ => none
  | .after e => s.afterOperand e t

/-- The program, if it may end here. -/
def finish (s : ParserState) : Option Program :=
  let close := fun e =>
    match reduce 1 e s.frames with
    | (e, []) => some (s.finished ++ [statement s.target e])
    | _ => none
  match s.mode with
  | .statement => some s.finished
  | .named text place _ => close (.name text place)
  | .after e => close e
  | _ => none

end ParserState

/-- The state after some tokens, or the place of the first one that does not fit. -/
def runTokens (s : ParserState) : List Token → Except Place ParserState
  | [] => .ok s
  | t :: ts =>
    match s.next t with
    | some s => runTokens s ts
    | none => .error t.place

/-- The program of a list of tokens. -/
def parseTokens (tokens : List Token) : Except Place Program := do
  let s ← runTokens .initial tokens
  match s.finish with
  | some program => return program
  | none => throw ((tokens.getLast?.map (·.place)).getD ⟨1, 1⟩)

/-- The program of a scanned text. -/
def Scan.parse (s : Scan) : Except Place Program :=
  match s.stop with
  | none => parseTokens s.tokens
  | some place => do
    let _ ← runTokens .initial s.tokens
    throw place

/-- The location of a place in a text. -/
def Place.locate (p : Place) (text : String) : Text.Location :=
  { line := some p.line
    column := some p.column
    lineText := (Text.splitLines text)[p.line - 1]? }

/-- The program of a text whose comments have been removed. -/
def parse (text : String) : Except Text.Location Program :=
  (scan text).parse.mapError fun place => place.locate text

end TensorEquations
