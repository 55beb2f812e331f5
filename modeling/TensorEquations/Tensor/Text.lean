import TensorEquations.Scalar.Text
import TensorEquations.Tensor.Basic

/-!
# The text of a tensor

* `Tensor.text` — a line `[a=0,b=1] x` for each component, or the scalar of a tensor without axes.
* `Tensor.form` — the labels and the components as nested lists.
-/

namespace TensorEquations.Tensor

/-- A multi-index with its labels. -/
def indexText (labels : List String) (index : List Nat) : String :=
  ",".intercalate ((labels.zip index).map fun (label, i) => s!"{label}={i}")

/-- One line for each component. -/
def text (t : Tensor) : String :=
  if t.labels = [] then (t.component []).text else
  "\n".intercalate (t.items.map fun (index, s) => "[" ++ indexText t.labels index ++ "] " ++ s.message)

/-- The components below a partial multi-index as nested lists. -/
def nestedText (t : Tensor) (index : List Nat) : Nat → String
  | 0 => (t.component index).text
  | rank + 1 =>
    "[" ++ ", ".intercalate ((List.range t.dimension).map fun i => t.nestedText (index ++ [i]) rank)
      ++ "]"

/-- The labels and the components of a tensor. -/
def form (t : Tensor) : String :=
  s!"Tensor({labelSet t.labels}, {t.nestedText [] t.rank})"

end TensorEquations.Tensor
