import TensorEquations.Tensor.Basic

/-!
# Arithmetic of tensors

* `Tensor.withLabels`, `Tensor.rename` — the same components under other labels.
* `Tensor.alignedList` — the components with the axes in another order.
* `Tensor.add`, `Tensor.neg`, `Tensor.sub`, `Tensor.scale` — componentwise operations; two operands
  are matched by label.
* `Tensor.outer`, `Tensor.contractRepeated`, `Tensor.product` — the outer product, summed over the labels that
  both factors carry, two axes at a time.
* `Tensor.isZero`, `Tensor.equals` — equality of components after expansion, by label.
-/

namespace TensorEquations.Tensor

/-! ## Labels -/

/-- The same components under other labels, position by position. -/
def withLabels (t : Tensor) (labels : List String) : Except ShapeError Tensor :=
  if h : labels.length = t.labels.length then t.relabel labels h
  else .error (.labelCount t.rank labels)

/-- What a label becomes when every `old` label becomes the `new` one at the same place; the last
of several equal `old` labels counts. -/
def renamed (old new : List String) (label : String) : String :=
  ((old.zip new).reverse.lookup label).getD label

/-- Renames labels simultaneously. -/
def rename (t : Tensor) (old new : List String) : Except ShapeError Tensor :=
  if old.length ≠ new.length then .error (.renameLength old new) else
  let missing := old.filter fun label => !t.labels.contains label
  if missing ≠ [] then .error (.renameMissing missing t.labels) else
  t.relabel (t.labels.map (renamed old new)) (by simp)

/-- The components with the axes in the order of `labels`. -/
def alignedList (t : Tensor) (labels : List String) : Except ShapeError (List Scalar) :=
  if labels.isPerm t.labels then
    .ok (t.indices.map fun index => t.lookup (.ofIndex labels index))
  else .error (.labelMismatch t.labels labels)

/-- Operands with axes have to share their dimension. -/
def checkDimensions (a b : Tensor) : Except ShapeError Unit :=
  if a.labels ≠ [] ∧ b.labels ≠ [] ∧ a.dimension ≠ b.dimension then
    .error (.dimensionMismatch a.dimension b.dimension)
  else .ok ()

/-! ## Componentwise operations -/

/-- The sum of two tensors with the same labels in any order; the result keeps the order of the
left one. -/
def add (a b : Tensor) : Except ShapeError Tensor := do
  checkDimensions a b
  if a.labels.isPerm b.labels then
    return tabulate a.labels a.nodup_labels a.dimension fun ν => a.lookup ν + b.lookup ν
  else throw (.labelMismatch b.labels a.labels)

def neg (t : Tensor) : Tensor := t.map (- ·)

def sub (a b : Tensor) : Except ShapeError Tensor := a.add b.neg

def scale (t : Tensor) (factor : Scalar) : Tensor := t.map (· * factor)

def expand (t : Tensor) : Tensor := t.map Scalar.expand

/-! ## Product -/

/-- The component of the outer product at a multi-index for the axes of both factors. -/
def outer (a b : Tensor) (index : List Nat) : Scalar :=
  a.component (index.take a.rank) * b.component (index.drop a.rank)

/-- The sum of a list from left to right. -/
def addUp (xs : List Scalar) : Scalar :=
  match xs with
  | [] => 0
  | x :: xs => xs.foldl (· + ·) x

/-- The sum over the diagonal of two axes, which the multi-indices of the result leave out. -/
def sumDiagonal (dimension first second : Nat) (f : List Nat → Scalar) (index : List Nat) : Scalar :=
  addUp ((List.range dimension).map fun i => f ((index.insertIdx first i).insertIdx second i))

/-- Where a label stands for the second time. -/
def secondPlace (labels : List String) (l : String) : Nat :=
  labels.idxOf l + 1 + (labels.drop (labels.idxOf l + 1)).idxOf l

/-- The labels without the first two places of one of them. -/
def dropPair (labels : List String) (l : String) : List String :=
  (labels.eraseIdx (secondPlace labels l)).eraseIdx (labels.idxOf l)

theorem length_dropPair_lt {labels : List String} {l : String} (h : l ∈ labels) :
    (dropPair labels l).length < labels.length := by
  have hlt := List.idxOf_lt_length_of_mem h
  have hle := List.length_eraseIdx_le (labels.eraseIdx (secondPlace labels l)) (labels.idxOf l)
  unfold dropPair
  by_cases hsecond : secondPlace labels l < labels.length
  · rw [List.length_eraseIdx_of_lt hsecond] at hle
    omega
  · rw [List.eraseIdx_of_length_le (Nat.le_of_not_lt hsecond), List.length_eraseIdx_of_lt hlt]
    omega

/-- The first label that stands at two places. -/
def repeated? (labels : List String) : Option String := labels.find? fun l => labels.count l == 2

/-- Sums over the diagonal of two axes as long as two axes carry one label; the labels that are left, and the
components by multi-index. -/
def contractRepeated (dimension : Nat) (labels : List String) (f : List Nat → Scalar) :
    Except TensorError (List String × (List Nat → Scalar)) :=
  match h : repeated? labels with
  | none => .ok (labels, f)
  | some l =>
    if dimension = 0 then .error .emptyContraction
    else
      have : (dropPair labels l).length < labels.length := length_dropPair_lt (List.mem_of_find?_eq_some h)
      contractRepeated dimension (dropPair labels l)
        (sumDiagonal dimension (labels.idxOf l) (secondPlace labels l) f)
termination_by labels.length

theorem contractRepeated_of_none {dimension : Nat} {labels : List String} {f : List Nat → Scalar}
    (h : repeated? labels = none) : contractRepeated dimension labels f = .ok (labels, f) := by
  rw [contractRepeated]
  split
  · rfl
  · rename_i hsome
    rw [h] at hsome
    cases hsome

theorem contractRepeated_of_some {dimension : Nat} {labels : List String} {l : String}
    {f : List Nat → Scalar} (h : repeated? labels = some l) :
    contractRepeated dimension labels f =
      if dimension = 0 then .error .emptyContraction
      else
        contractRepeated dimension (dropPair labels l)
          (sumDiagonal dimension (labels.idxOf l) (secondPlace labels l) f) := by
  rw [contractRepeated]
  split
  · rename_i hnone
    rw [h] at hnone
    cases hnone
  · rename_i l' hsome
    obtain rfl : l = l' := Option.some.inj (h.symm.trans hsome)
    rfl

/-- A label that stands at more than two places. -/
def overused? (labels : List String) : Option String := labels.find? fun l => 2 < labels.count l

/-- The outer product, summed over the values of the labels that both factors carry. -/
def product (a b : Tensor) : Except TensorError Tensor := do
  (checkDimensions a b).mapError TensorError.shape
  let labels := a.labels ++ b.labels
  match overused? labels with
  | some l => throw (.shape (.overusedLabel l))
  | none =>
    let dimension := if a.labels = [] then b.dimension else a.dimension
    let (free, f) ← contractRepeated dimension labels (outer a b)
    build free dimension f

/-! ## Comparison -/

/-- Whether every component expands to zero. -/
def isZero (t : Tensor) : Bool := t.toList.all fun s => s.expand.isZero

/-- Whether two tensors have the same labels, in any order, and the same components. -/
def equals (a b : Tensor) : Bool :=
  match a.sub b with
  | .ok difference => difference.isZero
  | .error _ => false

end TensorEquations.Tensor
