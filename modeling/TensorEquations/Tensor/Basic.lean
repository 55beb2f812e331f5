import TensorEquations.Scalar.Expansion
import TensorEquations.Tensor.Error

/-!
# Tensors

Dense tensors of scalars whose axes carry labels.

* `multiIndices` — the multi-indices of a rank in row-major order.
* `Tensor` — pairwise different labels, the common range of all axes, and the components.
* `Tensor.lookup` — the component that an assignment of index values to labels selects; operations
  match their operands through it, by label and not by position.
* `Tensor.tabulate` — the tensor whose components are given by a function of such assignments.
* `Nested` — components as nested lists.

`length_multiIndices` counts the components, so that every tensor has as many as its shape says.
-/

namespace TensorEquations

/-- The multi-indices of `rank` positions below `dimension`, the last position running fastest. -/
def multiIndices (dimension : Nat) : Nat → List (List Nat)
  | 0 => [[]]
  | rank + 1 =>
    (List.range dimension).flatMap fun i => (multiIndices dimension rank).map (i :: ·)

theorem length_multiIndices (dimension rank : Nat) :
    (multiIndices dimension rank).length = Nat.pow dimension rank := by
  induction rank with
  | zero => rfl
  | succ rank ih =>
    simp only [multiIndices, List.length_flatMap, List.length_map, ih, List.map_const',
      List.length_range, List.sum_replicate_nat]
    exact Nat.mul_comm ..

/-- The place of a multi-index in row-major order. -/
def position (dimension : Nat) (index : List Nat) : Nat :=
  index.foldl (fun p i => p * dimension + i) 0

/-- Index values for labels. -/
abbrev Assignment := String → Nat

/-- The assignment that gives the labels the positions of a multi-index, in order. -/
def Assignment.ofIndex (labels : List String) (index : List Nat) : Assignment :=
  fun label => index.getD (labels.idxOf label) 0

/-- A tensor: the axis at place `k` carries the label at place `k`, all axes run over the same
range, and the components are stored in row-major order. A tensor without axes has dimension zero. -/
structure Tensor where
  labels : List String
  dimension : Nat
  components : Array Scalar
  nodup_labels : labels.Nodup
  size_components : components.size = Nat.pow dimension labels.length
  dimension_of_scalar : labels = [] → dimension = 0

namespace Tensor

def rank (t : Tensor) : Nat := t.labels.length

/-- The range of the axes, if there are any. -/
def dimension? (t : Tensor) : Option Nat := if t.labels = [] then none else some t.dimension

/-- The multi-indices of a tensor in row-major order. -/
def indices (t : Tensor) : List (List Nat) := multiIndices t.dimension t.rank

/-- The component at a multi-index. -/
def component (t : Tensor) (index : List Nat) : Scalar :=
  t.components.getD (position t.dimension index) default

/-- The component that an assignment selects. -/
def lookup (t : Tensor) (ν : Assignment) : Scalar := t.component (t.labels.map ν)

/-- The tensor with given labels and components in row-major order. -/
def ofFunction (labels : List String) (nodup : labels.Nodup) (dimension : Nat)
    (f : List Nat → Scalar) : Tensor :=
  let range := if labels = [] then 0 else dimension
  { labels := labels
    dimension := range
    components := ((multiIndices range labels.length).map f).toArray
    nodup_labels := nodup
    size_components := by simp [length_multiIndices]
    dimension_of_scalar := fun h => by simp [range, h] }

/-- The tensor whose components are the values of a function of assignments. -/
def tabulate (labels : List String) (nodup : labels.Nodup) (dimension : Nat)
    (f : Assignment → Scalar) : Tensor :=
  ofFunction labels nodup dimension fun index => f (.ofIndex labels index)

/-- The same components under other labels, which have to be pairwise different. -/
def relabel (t : Tensor) (labels : List String) (h : labels.length = t.labels.length) :
    Except ShapeError Tensor :=
  if nodup : labels.Nodup then
    .ok { labels := labels
          dimension := t.dimension
          components := t.components
          nodup_labels := nodup
          size_components := by rw [h]; exact t.size_components
          dimension_of_scalar := fun e => t.dimension_of_scalar (by
            subst e; exact List.length_eq_zero_iff.mp h.symm) }
  else .error (.duplicateLabels labels)

/-- A function applied to every component. -/
def map (t : Tensor) (f : Scalar → Scalar) : Tensor :=
  { t with
    components := t.components.map f
    size_components := by simp [t.size_components] }

/-- A scalar as a tensor without axes. -/
def scalar (s : Scalar) : Tensor := ⟨[], 0, #[s], List.nodup_nil, rfl, fun _ => rfl⟩

/-- The component of a tensor without axes. -/
def value (t : Tensor) : Except ShapeError Scalar :=
  if t.labels = [] then .ok (t.component []) else .error (.notScalar t.rank)

/-- The components in row-major order. -/
def toList (t : Tensor) : List Scalar := t.components.toList

/-- The multi-indices with their components, in row-major order. -/
def items (t : Tensor) : List (List Nat × Scalar) := t.indices.zip t.toList

/-- The symbols of all components, each once. -/
def symbols (t : Tensor) : List String := (t.toList.flatMap Scalar.symbolList).eraseDups

/-! ## Builders -/

/-- The range of the axes of a new tensor; without axes any number will do. -/
def checkedDimension (labels : List String) (dimension : Int) : Except TensorError Nat :=
  if dimension < 0 ∧ labels ≠ [] then .error .negativeDimension else .ok dimension.toNat

/-- A tensor from a function of multi-indices; the labels have to be pairwise different. -/
def build (labels : List String) (dimension : Int) (f : List Nat → Scalar) :
    Except TensorError Tensor := do
  let dimension ← checkedDimension labels dimension
  if nodup : labels.Nodup then return ofFunction labels nodup dimension f
  else throw (.shape (.duplicateLabels labels))

/-- The tensor of zeros. -/
def zeros (labels : List String) (dimension : Int) : Except TensorError Tensor :=
  build labels dimension fun _ => 0

/-- The name of the component of a general tensor at a multi-index. -/
def componentName (name : String) (index : List Nat) : String :=
  if index = [] then name else name ++ "_" ++ "_".intercalate (index.map toString)

/-- The most general tensor: one symbol for each component. -/
def general (labels : List String) (dimension : Int) (name : String) :
    Except TensorError Tensor :=
  build labels dimension fun index => .symbol (componentName name index)

end Tensor

/-! ## Nested components -/

/-- Components as nested lists. -/
inductive Nested where
  | leaf (s : Scalar)
  | node (children : List Nested)

namespace Nested

/-- The longest common start of two lists. -/
def commonStart : List Nat → List Nat → List Nat
  | x :: xs, y :: ys => if x = y then x :: commonStart xs ys else []
  | _, _ => []

mutual

/-- The shape of nested lists, as deep as lists at one depth have one length. -/
def shape : Nested → List Nat
  | leaf _ => []
  | node [] => [0]
  | node (c :: cs) => (cs.length + 1) :: shapeOfAll c.shape cs

/-- The longest common start of a shape and the shapes of a list. -/
def shapeOfAll (found : List Nat) : List Nested → List Nat
  | [] => found
  | c :: cs => shapeOfAll (commonStart found c.shape) cs

end

mutual

/-- The scalars of nested lists from left to right. -/
def leaves : Nested → List Scalar
  | leaf s => [s]
  | node cs => leavesOfAll cs

def leavesOfAll : List Nested → List Scalar
  | [] => []
  | c :: cs => c.leaves ++ leavesOfAll cs

end

end Nested

/-- The tensor with given labels and nested components. -/
def Tensor.ofNested (labels : List String) (nested : Nested) : Except ShapeError Tensor :=
  if nodup : labels.Nodup then
    let shape := nested.shape
    if shape.length ≠ labels.length then .error (.componentRank labels shape.length) else
    let dimension := shape.headD 0
    if shape.any (· != dimension) then .error (.unequalAxes shape) else
    let components := nested.leaves.toArray
    .ok (Tensor.ofFunction labels nodup dimension fun index =>
      components.getD (position dimension index) default)
  else .error (.duplicateLabels labels)

end TensorEquations
