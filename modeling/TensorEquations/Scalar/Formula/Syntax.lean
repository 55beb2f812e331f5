import TensorEquations.Scalar.Formula.Lexeme

/-!
# Syntax of formulas

* `Tree` — syntax trees.
* `Frame`, `Mode`, `State` — a formula read up to some word: the unfinished operations, the innermost
  first, and what may come next.
* `State.next` — one more word; each word is looked at once.
* `Tree.read` — the tree of a list of words.

Comparisons bind weakest, then sums, products, signs and powers, and a power binds its right operand
first. A formula with commas outside all brackets is a list of items.
-/

namespace TensorEquations.Formula

/-- A syntax tree. -/
inductive Tree where
  | name (text : String)
  | number (value : Number)
  | quoted (text : String)
  | keep (e : Tree)
  | negate (e : Tree)
  | binary (op : Operator) (left right : Tree)
  | factorial (marks : Nat) (e : Tree)
  | call (function : String) (arguments : List Tree)
  | keyword (name : String) (value : Tree)
  | member (e : Tree) (name : String)
  | items (bracket : Bracket) (elements : List Tree)

/-- An operation that waits for its last operand, or brackets that are still open. -/
inductive Frame where
  | keep
  | negate
  | left (op : Operator) (operand : Tree)
  | bare (elements : List Tree)
  | group (bracket : Bracket) (elements : List Tree)
  | call (function : String) (arguments : List Tree)
  | keyword (name : String)

/-- What may come next: an operand, an operand or a closing bracket, or, after an operand, an
operator, or the name of a member. A name may still turn out to be a function or a keyword. -/
inductive Mode where
  | operand
  | element
  | named (text : String)
  | after (e : Tree)
  | member (e : Tree)

/-- Names that are words of the grammar and stand for nothing here. -/
def reserved : List String :=
  ["and", "as", "assert", "async", "await", "break", "class", "continue", "def", "del", "elif", "else",
    "except", "finally", "for", "from", "global", "if", "import", "in", "is", "lambda", "nonlocal",
    "not", "or", "pass", "raise", "return", "try", "while", "with", "yield"]

/-- A formula read up to some word. -/
structure State where
  frames : List Frame
  mode : Mode

/-- How tightly an operator binds. -/
def Operator.strength : Operator → Nat
  | .plus => 2
  | .minus => 2
  | .times => 3
  | .divide => 3
  | .quotient => 3
  | .remainder => 3
  | .power => 5
  | _ => 1

/-- How tightly an unfinished operation binds; brackets do not. -/
def Frame.strength : Frame → Nat
  | .left op _ => op.strength
  | .negate => 4
  | .keep => 4
  | _ => 0

/-- Finishes the operations on top of the stack that bind at least as tightly as `strength`. -/
def reduce (strength : Nat) (e : Tree) : List Frame → Tree × List Frame
  | [] => (e, [])
  | frame :: frames =>
    if frame.strength < strength then (e, frame :: frames) else
    match frame with
    | .negate => reduce strength (.negate e) frames
    | .keep => reduce strength (.keep e) frames
    | .left op l => reduce strength (.binary op l e) frames
    | frame => (e, frame :: frames)

/-- An operator after a complete operand. -/
def applyOperator (op : Operator) (e : Tree) (frames : List Frame) : State :=
  match op with
  | .power => ⟨.left .power e :: frames, .operand⟩
  | op =>
    let (e, frames) := reduce op.strength e frames
    ⟨.left op e :: frames, .operand⟩

/-- Finishes everything up to the innermost bracket, keyword arguments included. -/
def closeElement (e : Tree) (frames : List Frame) : Tree × List Frame :=
  match reduce 1 e frames with
  | (e, .keyword key :: frames) => (.keyword key e, frames)
  | found => found

/-- The tree of elements in brackets; a single one in round brackets without a comma is itself. -/
def grouped (bracket : Bracket) (elements : List Tree) (last : Tree) : Tree :=
  match bracket, elements with
  | .round, [] => last
  | bracket, elements => .items bracket (elements ++ [last])

/-- A word after a complete operand. -/
def afterOperand (frames : List Frame) (e : Tree) : Lexeme → Option State
  | .operator op => some (applyOperator op e frames)
  | .factorial marks => if marks ≤ 2 then some ⟨frames, .after (.factorial marks e)⟩ else none
  | .comma =>
    match closeElement e frames with
    | (e, .call f arguments :: frames) => some ⟨.call f (arguments ++ [e]) :: frames, .element⟩
    | (e, .group b elements :: frames) => some ⟨.group b (elements ++ [e]) :: frames, .element⟩
    | (e, .bare elements :: frames) => some ⟨.bare (elements ++ [e]) :: frames, .element⟩
    | _ => none
  | .closing bracket =>
    match bracket, closeElement e frames with
    | .round, (e, .call f arguments :: frames) =>
      some ⟨frames, .after (.call f (arguments ++ [e]))⟩
    | bracket, (e, .group b elements :: frames) =>
      if bracket = b then some ⟨frames, .after (grouped b elements e)⟩ else none
    | _, _ => none
  | .point => some ⟨frames, .member e⟩
  | _ => none

/-- A word where an operand is expected. -/
def beforeOperand (frames : List Frame) : Lexeme → Option State
  | .name text => if reserved.contains text then none else some ⟨frames, .named text⟩
  | .number c => some ⟨frames, .after (.number c)⟩
  | .quoted text => some ⟨frames, .after (.quoted text)⟩
  | .operator .minus => some ⟨.negate :: frames, .operand⟩
  | .operator .plus => some ⟨.keep :: frames, .operand⟩
  | .opening b => some ⟨.group b [] :: frames, .element⟩
  | _ => none

/-- One more word. -/
def State.next (state : State) (word : Lexeme) : Option State :=
  match state.mode with
  | .operand => beforeOperand state.frames word
  | .element =>
    match word, state.frames with
    | .closing .round, .call f arguments :: frames => some ⟨frames, .after (.call f arguments)⟩
    | .closing bracket, .group b elements :: frames =>
      if bracket = b then some ⟨frames, .after (.items b elements)⟩ else none
    | word, frames => beforeOperand frames word
  | .named text =>
    match word, state.frames with
    | .opening .round, frames => some ⟨.call text [] :: frames, .element⟩
    | .equals, .call f arguments :: frames =>
      some ⟨.keyword text :: .call f arguments :: frames, .operand⟩
    | word, frames => afterOperand frames (.name text) word
  | .after e => afterOperand state.frames e word
  | .member e =>
    match word with
    | .name text => some ⟨state.frames, .after (.member e text)⟩
    | _ => none

/-- The tree of a formula read to its end. -/
def State.finish (state : State) : Option Tree :=
  let close := fun e => match reduce 1 e state.frames with
    | (e, [.bare elements]) => some (grouped .round elements e)
    | _ => none
  match state.mode with
  | .named text => close (.name text)
  | .after e => close e
  | .element =>
    match state.frames with
    | [.bare elements] => some (.items .round elements)
    | _ => none
  | _ => none

/-- The tree of a list of words. -/
def Tree.read (words : List Lexeme) : Option Tree :=
  (words.foldlM State.next ⟨[.bare []], .operand⟩).bind State.finish

end TensorEquations.Formula
