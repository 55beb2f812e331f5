import Mathlib.Logic.Function.DependsOn
import TensorEquations.Proofs.Tensor.Comparison

/-!
# Reading tensors by label

The component that values of the labels select, for each way to make a tensor from others.

* `getElem?_position`, `component_ofFunction` — every multi-index stands at its own place.
* `Tensor.InRange` — values of the labels of a tensor that are in the range of its axes.
* `Tensor.lookup_tabulate`, `Tensor.lookup_map`, `Tensor.lookup_relabeled` — what is read from a tensor that
  is tabulated, changed component by component, or put under other labels.
* `Tensor.toList_eq_map` — the components of a tensor are those that its multi-indices select.
* `Tensor.rename_ok` — renaming some labels by a function that keeps the others.
-/

namespace TensorEquations

open Tensor

/-! ## Components by multi-index -/

theorem position_cons (dimension i : ℕ) (index : List ℕ) :
    position dimension (i :: index) = i * dimension ^ index.length + position dimension index := by
  have hfold : ∀ (index : List ℕ) (p : ℕ), index.foldl (fun p i => p * dimension + i) p =
      p * dimension ^ index.length + index.foldl (fun p i => p * dimension + i) 0 := by
    intro index
    induction index with
    | nil => simp
    | cons j index ih =>
      intro p
      rw [List.foldl_cons, List.foldl_cons, ih (p * dimension + j), ih (0 * dimension + j), List.length_cons,
        pow_succ]
      ring
  unfold position
  rw [List.foldl_cons, hfold]
  simp

theorem position_lt {dimension : ℕ} : ∀ {index : List ℕ}, (∀ i ∈ index, i < dimension) →
    position dimension index < dimension ^ index.length
  | [], _ => by simp [position]
  | i :: index, h => by
    have hi := h i List.mem_cons_self
    have ih := position_lt fun j hj => h j (List.mem_cons_of_mem _ hj)
    rw [position_cons, List.length_cons, pow_succ]
    calc i * dimension ^ index.length + position dimension index
        < i * dimension ^ index.length + dimension ^ index.length := by omega
      _ = (i + 1) * dimension ^ index.length := by ring
      _ ≤ dimension * dimension ^ index.length := Nat.mul_le_mul_right _ hi
      _ = dimension ^ index.length * dimension := Nat.mul_comm _ _

/-- An element of a list of blocks of one length. -/
theorem getElem?_flatMap_of_length {α β : Type} {f : α → List β} {n q : ℕ} (hf : ∀ x, (f x).length = n)
    (hq : q < n) : ∀ (xs : List α) (k : ℕ), (xs.flatMap f)[k * n + q]? = xs[k]?.bind fun x => (f x)[q]?
  | [], k => by simp
  | x :: xs, 0 => by
    rw [List.flatMap_cons, List.getElem?_append_left (by rw [hf]; omega)]
    simp
  | x :: xs, k + 1 => by
    have hplace : (k + 1) * n + q - n = k * n + q := by
      rw [Nat.succ_mul]
      omega
    rw [List.flatMap_cons, List.getElem?_append_right (by rw [hf, Nat.succ_mul]; omega), hf, hplace,
      getElem?_flatMap_of_length hf hq xs k]
    simp

/-- Every multi-index stands at its position. -/
theorem getElem?_position {dimension : ℕ} : ∀ {rank : ℕ} {index : List ℕ}, index ∈ multiIndices dimension rank →
    (multiIndices dimension rank)[position dimension index]? = some index
  | 0, index, h => by
    rw [multiIndices, List.mem_singleton] at h
    subst h
    rfl
  | rank + 1, [], h => by simp [mem_multiIndices] at h
  | rank + 1, i :: index, h => by
    obtain ⟨hlength, hall⟩ := mem_multiIndices.mp h
    obtain ⟨hi, hindex⟩ := List.forall_mem_cons.mp hall
    have hrank : index.length = rank := by simpa using hlength
    have hblock : ∀ j, ((multiIndices dimension rank).map (j :: ·)).length = dimension ^ rank := by
      intro j
      rw [List.length_map, length_multiIndices]
      rfl
    have hlt : position dimension index < dimension ^ rank := hrank ▸ position_lt hindex
    have ih := getElem?_position (mem_multiIndices.mpr ⟨hrank, hindex⟩)
    rw [position_cons, multiIndices, hrank, getElem?_flatMap_of_length hblock hlt, List.getElem?_range hi,
      Option.bind_some, List.getElem?_map, ih]
    rfl

/-- The components of a tensor that is built from a function of multi-indices. -/
theorem component_ofFunction {labels : List String} (nodup : labels.Nodup) {dimension : ℕ}
    (f : List ℕ → Scalar) {index : List ℕ} (h : index ∈ (ofFunction labels nodup dimension f).indices) :
    (ofFunction labels nodup dimension f).component index = f index := by
  have hplace := getElem?_position h
  unfold component
  rw [Array.getD_eq_getD_getElem?]
  show (((multiIndices _ labels.length).map f).toArray[position _ index]?).getD default = f index
  rw [List.getElem?_toArray, List.getElem?_map]
  exact congrArg (fun found => (Option.map f found).getD default) hplace

/-! ## Values of labels -/

variable {labels old : List String} {ν μ : Assignment} {l : String} {f : String → String}

/-- A table of a function. -/
theorem lookup_table (f : String → String) (xs : List String) (l : String) :
    (xs.map fun x => (x, f x)).lookup l = if l ∈ xs then some (f l) else none := by
  induction xs with
  | nil => rfl
  | cons x xs ih =>
    rw [List.map_cons, List.lookup_cons, ih]
    by_cases h : l = x
    · simp [h]
    · simp [beq_eq_false_iff_ne.mpr h, h]

theorem ofIndex_map (hl : l ∈ labels) : Assignment.ofIndex labels (labels.map ν) l = ν l := by
  have hlt := List.idxOf_lt_length_of_mem hl
  rw [Assignment.ofIndex, List.getD_eq_getElem?_getD, List.getElem?_map, List.getElem?_eq_getElem hlt,
    List.getElem_idxOf hlt]
  rfl

namespace Tensor

variable {t u : Tensor}

theorem IsPolynomial.lookup (h : t.IsPolynomial) (ν : Assignment) : (t.lookup ν).isPolynomial = true :=
  ((related_same (P := Scalar.IsPolynomial)).mpr h |>.lookup ν).2

/-- Tensors that are built from functions with the same values. -/
theorem ofFunction_congr {n : ℕ} (nodup : labels.Nodup) {f g : List ℕ → Scalar}
    (h : ∀ index, index.length = labels.length → f index = g index) :
    ofFunction labels nodup n f = ofFunction labels nodup n g := by
  have hmap : ∀ range, (multiIndices range labels.length).map f = (multiIndices range labels.length).map g :=
    fun range => List.map_congr_left fun index hindex => h index (mem_multiIndices.mp hindex).1
  simp only [ofFunction, hmap]

/-- Values of the labels of a tensor in the range of its axes. -/
def InRange (t : Tensor) (ν : Assignment) : Prop := ∀ l ∈ t.labels, ν l < t.dimension

theorem InRange.mem_indices (h : t.InRange ν) : t.labels.map ν ∈ t.indices :=
  mem_multiIndices.mpr ⟨List.length_map _, List.forall_mem_map.mpr h⟩

theorem inRange_ofIndex {index : List ℕ} (h : index ∈ t.indices) : t.InRange (.ofIndex t.labels index) := by
  obtain ⟨hlength, hlt⟩ := mem_multiIndices.mp h
  have hmap := map_ofIndex t.nodup_labels hlength
  have hall : ∀ i ∈ t.labels.map (Assignment.ofIndex t.labels index), i < t.dimension := hmap.symm ▸ hlt
  exact List.forall_mem_map.mp hall

/-- The values of other labels do not matter. -/
theorem dependsOn_lookup (t : Tensor) : DependsOn t.lookup {l | l ∈ t.labels} :=
  fun _ _ h => congrArg t.component (List.map_congr_left h)

/-- Values are read the same from the multi-index that they make. -/
theorem lookup_ofIndex_map (h : ∀ l ∈ t.labels, l ∈ labels) :
    t.lookup (.ofIndex labels (labels.map ν)) = t.lookup ν :=
  t.dependsOn_lookup fun l hl => ofIndex_map (h l hl)

theorem dependsOn_add (hlabels : t.labels.Perm u.labels) :
    DependsOn (fun ν => t.lookup ν + u.lookup ν) {l | l ∈ t.labels} := by
  intro ν μ h
  have hu : u.lookup ν = u.lookup μ := u.dependsOn_lookup fun l hl => h l (hlabels.mem_iff.mpr hl)
  simp only [t.dependsOn_lookup h, hu]

/-- **What is read from a tabulated tensor**, if its function does not see the values of other labels. -/
theorem lookup_tabulate (nodup : labels.Nodup) {n : ℕ} {F : Assignment → Scalar} (hF : DependsOn F {l | l ∈ labels})
    (hν : (tabulate labels nodup n F).InRange ν) : (tabulate labels nodup n F).lookup ν = F ν :=
  calc (tabulate labels nodup n F).lookup ν
      = F (.ofIndex labels (labels.map ν)) := component_ofFunction nodup _ hν.mem_indices
    _ = F ν := hF fun _ hl => ofIndex_map hl

theorem inRange_tabulate {F : Assignment → Scalar} :
    (tabulate t.labels t.nodup_labels t.dimension F).InRange ν ↔ t.InRange ν := by
  show (∀ l ∈ t.labels, ν l < if t.labels = [] then 0 else t.dimension) ↔ t.InRange ν
  rw [t.range_eq]
  rfl

/-- What is read from a tensor tabulated over the axes of another one. -/
theorem lookup_tabulated {F : Assignment → Scalar} (hF : DependsOn F {l | l ∈ t.labels}) (hν : t.InRange ν) :
    (tabulate t.labels t.nodup_labels t.dimension F).lookup ν = F ν :=
  lookup_tabulate t.nodup_labels hF (inRange_tabulate.mpr hν)

/-- **What is read from a tensor changed component by component.** -/
theorem lookup_map {g : Scalar → Scalar} (hν : t.InRange ν) : (t.map g).lookup ν = g (t.lookup ν) := by
  have hlt : position t.dimension (t.labels.map ν) < t.components.size := by
    rw [t.size_components]
    have hposition := position_lt (mem_multiIndices.mp hν.mem_indices).2
    rwa [List.length_map] at hposition
  show (t.components.map g).getD (position t.dimension (t.labels.map ν)) default = g (t.lookup ν)
  rw [lookup, component, Array.getD_eq_getD_getElem?, Array.getD_eq_getD_getElem?, Array.getElem?_map,
    Array.getElem?_eq_getElem hlt]
  rfl

/-! ## All components -/

theorem component_eq_lookup {index : List ℕ} (hindex : index ∈ t.indices) :
    t.component index = t.lookup (.ofIndex t.labels index) := by
  rw [lookup, map_ofIndex t.nodup_labels (mem_multiIndices.mp hindex).1]

/-- Every place is that of a multi-index. -/
theorem exists_position {dimension : ℕ} : ∀ {rank i : ℕ}, i < dimension ^ rank →
    ∃ index ∈ multiIndices dimension rank, position dimension index = i
  | 0, i, h => ⟨[], List.mem_singleton_self _, by simpa [position, eq_comm] using h⟩
  | rank + 1, i, h => by
    have hpos : 0 < dimension ^ rank := Nat.pos_of_ne_zero fun hz => by simp [pow_succ, hz] at h
    obtain ⟨index, hindex, hplace⟩ := exists_position (Nat.mod_lt i hpos)
    obtain ⟨hlength, hall⟩ := mem_multiIndices.mp hindex
    have hfirst : i / dimension ^ rank < dimension := by
      rw [Nat.div_lt_iff_lt_mul hpos, mul_comm, ← pow_succ]
      exact h
    refine ⟨i / dimension ^ rank :: index, mem_multiIndices.mpr ⟨by simp [hlength], ?_⟩, ?_⟩
    · exact List.forall_mem_cons.mpr ⟨hfirst, hall⟩
    · rw [position_cons, hlength, hplace, Nat.div_add_mod']

/-- The components in row-major order, read by label. -/
theorem toList_eq_map (t : Tensor) : t.toList = t.indices.map fun index => t.lookup (.ofIndex t.labels index) := by
  have hlength : t.toList.length = t.indices.length := by
    rw [toList, Array.length_toList, t.size_components, indices, length_multiIndices, rank]
  refine List.ext_getElem (by rw [hlength, List.length_map]) fun i hi hi' => ?_
  have hlt : i < t.dimension ^ t.rank := by
    rwa [toList, Array.length_toList, t.size_components] at hi
  obtain ⟨index, hindex, rfl⟩ := exists_position hlt
  have hplace : t.indices[position t.dimension index]? = some index := getElem?_position hindex
  rw [List.getElem_map, (List.getElem?_eq_some_iff.mp hplace).2, ← component_eq_lookup hindex, component,
    Array.getD_eq_getD_getElem?, Array.getElem?_eq_getElem (by rwa [toList, Array.length_toList] at hi)]
  rfl

/-! ## Other labels -/

theorem lookup_relabeled (hlabels : u.labels = t.labels.map f) (h : u.SameComponents t) (ν : Assignment) :
    u.lookup ν = t.lookup (ν ∘ f) := by
  rw [lookup, lookup, h.component, hlabels, List.map_map]

theorem inRange_relabeled (hlabels : u.labels = t.labels.map f) (h : u.SameComponents t) :
    u.InRange ν ↔ t.InRange (ν ∘ f) := by
  rw [InRange, InRange, hlabels, List.forall_mem_map, h.dimension]
  rfl

theorem relabel_ok (hlength : labels.length = t.labels.length) (hn : labels.Nodup) :
    ∃ u, t.relabel labels hlength = .ok u ∧ u.labels = labels ∧ u.SameComponents t := by
  rw [relabel, dif_pos hn]
  exact ⟨_, rfl, rfl, rfl, rfl⟩

/-- A renaming given by a function. -/
theorem renamed_map (f : String → String) (old : List String) (l : String) :
    renamed old (old.map f) l = if l ∈ old then f l else l := by
  have hzip : old.zip (old.map f) = old.map fun x => (x, f x) := by
    have hpair : (old.map id).zip (old.map f) = old.map fun x => (id x, f x) := List.zip_map'
    rwa [List.map_id] at hpair
  rw [renamed, hzip, ← List.map_reverse, lookup_table, apply_ite (Option.getD · l)]
  simp

/-- **Some labels renamed by a function that keeps the others.** -/
theorem rename_ok (hold : ∀ l ∈ old, l ∈ t.labels) (hf : ∀ l ∈ t.labels, l ∉ old → f l = l)
    (hn : (t.labels.map f).Nodup) :
    ∃ u, t.rename old (old.map f) = .ok u ∧ u.labels = t.labels.map f ∧ u.SameComponents t := by
  have hmissing : old.filter (fun l => !t.labels.contains l) = [] := by
    rw [List.filter_eq_nil_iff]
    intro l hl
    simpa using hold l hl
  have hlabels : t.labels.map (renamed old (old.map f)) = t.labels.map f := by
    refine List.map_congr_left fun l hl => ?_
    rw [renamed_map]
    split
    · rfl
    · next hl' => exact (hf l hl hl').symm
  obtain ⟨u, hu, hnew, hsame⟩ := relabel_ok (t := t) (List.length_map _) (hlabels ▸ hn)
  rw [rename, if_neg (by simp), hmissing, if_neg (not_not.mpr rfl)]
  exact ⟨u, hu, hnew.trans hlabels, hsame⟩

end Tensor

end TensorEquations
