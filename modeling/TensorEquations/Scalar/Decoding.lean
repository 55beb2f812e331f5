import TensorEquations.Scalar.Formula.Value

/-!
# Reading scalars

* `Formula.read` — the value of the formula that a text is.
* `Scalar.ofText` — the scalar that a text stands for, or why it stands for none.
-/

namespace TensorEquations

/-- The value of the formula that a text is. -/
def Formula.read (text : String) : Except Formula.Fault Formula.Value :=
  match (Formula.lexemes text).bind Formula.Tree.read with
  | some tree => tree.value
  | none => .error .unreadable

/-- The scalar that a text stands for. A formula whose value is a text is read once more; truth
values and lists of items become symbols. -/
def Scalar.ofText (text : String) : Except Formula.Fault Scalar := do
  let value ← match ← Formula.read text with
    | .text inner => Formula.read inner
    | value => pure value
  match value with
  | .scalar s => return s
  | .nothing => throw .unreadable
  | value => return .symbol value.partText

end TensorEquations
