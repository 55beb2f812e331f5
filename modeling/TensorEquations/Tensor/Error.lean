/-!
# What can go wrong with tensors

* `ShapeError` — labels and shapes that do not fit.
* `TensorError` — these, a negative dimension, and a contraction over an empty range.
-/

namespace TensorEquations

/-- Labels as they are shown in messages and index lists. -/
def labelSet (labels : List String) : String := "\x7b" ++ " ".intercalate labels ++ "\x7d"

/-- Labels or shapes that do not fit. -/
inductive ShapeError where
  | duplicateLabels (labels : List String)
  | componentRank (labels : List String) (rank : Nat)
  | unequalAxes (shape : List Nat)
  | notScalar (rank : Nat)
  | labelCount (rank : Nat) (labels : List String)
  | renameLength (old new : List String)
  | renameMissing (missing labels : List String)
  | labelMismatch (labels wanted : List String)
  | dimensionMismatch (left right : Nat)
  | overusedLabel (label : String)
  | unknownLabel (label : String) (labels : List String)
  | repeatedLabel (labels : List String)
  | blockLengths
  | coefficientRank (name : String) (expected : Int) (actual : Nat)
  deriving DecidableEq, Repr

def ShapeError.message : ShapeError → String
  | duplicateLabels labels => s!"Duplicate index labels in {labelSet labels}"
  | componentRank labels rank =>
    s!"Tensor with indices {labelSet labels} needs rank {labels.length}, " ++
      s!"got components of rank {rank}"
  | unequalAxes shape =>
    "All tensor axes must share one dimension, got shape (" ++
      ", ".intercalate (shape.map toString) ++ ")"
  | notScalar rank => s!"Tensor of rank {rank} is not a scalar"
  | labelCount rank labels => s!"Cannot label a rank {rank} tensor with {labelSet labels}"
  | renameLength old new =>
    s!"Cannot rename {labelSet old} to {labelSet new}: lengths differ"
  | renameMissing missing labels =>
    s!"Indices {labelSet missing} not found in {labelSet labels}"
  | labelMismatch labels wanted => s!"Index mismatch: {labelSet labels} vs {labelSet wanted}"
  | dimensionMismatch left right => s!"Dimension mismatch: {left} vs {right}"
  | overusedLabel label => "Index '" ++ label ++ "' appears more than twice in a product"
  | unknownLabel label labels => "Index '" ++ label ++ s!"' not found in {labelSet labels}"
  | repeatedLabel labels => s!"Repeated index in {labelSet labels}"
  | blockLengths => "Block symmetrization can only go over indices of same length"
  | coefficientRank name expected actual =>
    s!"{name} expects a rank {expected} tensor, got rank {actual}"

/-- A tensor operation without a result. -/
inductive TensorError where
  | shape (error : ShapeError)
  | negativeDimension
  | emptyContraction
  deriving DecidableEq, Repr

def TensorError.message : TensorError → String
  | shape error => error.message
  | negativeDimension => "negative dimensions are not allowed"
  | emptyContraction => "index 0 is out of bounds for axis 0 with size 0"

end TensorEquations
