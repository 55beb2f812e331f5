import TensorEquations.Proofs.Tensor.General

/-!
# Comparison of tensors by label

* `mem_multiIndices_add`, `map_ofIndex_append` — a multi-index in two parts, for two blocks of labels.
* `Tensor.add_ok`, `Tensor.add_error` — the tensors that have a sum.
* `Tensor.equals_iff` — two tensors are equal by label if the components that each multi-index of the first
  one selects differ by what expands to zero.
* `Tensor.IsExchangeSymmetric` — a tensor that does not change when its first axes and its last ones are
  exchanged.
* `Tensor.equals_exchanged_iff` — **components under labels and under the same labels with two blocks exchanged
  are equal by label exactly if they are exchange symmetric.**
-/

namespace TensorEquations

/-! ## Multi-indices and labels -/

/-- A multi-index in two parts. -/
theorem mem_multiIndices_add {dimension m n : Nat} {index : List Nat} : index ∈ multiIndices dimension (m + n) ↔
    ∃ i ∈ multiIndices dimension m, ∃ j ∈ multiIndices dimension n, index = i ++ j := by
  simp only [mem_multiIndices]
  constructor
  · rintro ⟨hlength, hindex⟩
    refine ⟨index.take m, ⟨by rw [List.length_take]; omega, fun i hi => hindex i (List.mem_of_mem_take hi)⟩,
      index.drop m, ⟨by rw [List.length_drop]; omega, fun j hj => hindex j (List.mem_of_mem_drop hj)⟩,
      (List.take_append_drop m index).symm⟩
  · rintro ⟨i, ⟨rfl, hi⟩, j, ⟨rfl, hj⟩, rfl⟩
    exact ⟨List.length_append, List.forall_mem_append.mpr ⟨hi, hj⟩⟩

/-- Labels take the values of a multi-index in their order. -/
theorem map_ofIndex {labels : List String} {index : List Nat} (hn : labels.Nodup)
    (hlength : index.length = labels.length) : labels.map (Assignment.ofIndex labels index) = index := by
  refine List.ext_getElem (by rw [List.length_map, hlength]) fun k hk hk' => ?_
  rw [List.getElem_map, Assignment.ofIndex, hn.idxOf_getElem, List.getD_eq_getElem?_getD,
    List.getElem?_eq_getElem hk', Option.getD_some]

/-- Each of two blocks of labels takes its own part of a multi-index. -/
theorem map_ofIndex_append {I J : List String} {i j : List Nat} (hn : (I ++ J).Nodup) (hi : i.length = I.length)
    (hj : j.length = J.length) : I.map (Assignment.ofIndex (I ++ J) (i ++ j)) = i ∧
      J.map (Assignment.ofIndex (I ++ J) (i ++ j)) = j := by
  have hlength : (i ++ j).length = (I ++ J).length := by rw [List.length_append, List.length_append, hi, hj]
  have hall := map_ofIndex hn hlength
  rw [List.map_append] at hall
  exact List.append_inj hall (by rw [List.length_map, hi])

namespace Tensor

variable {t u v : Tensor}

theorem lookup_neg (ν : Assignment) : t.neg.lookup ν = -t.lookup ν := by
  show (t.components.map (- ·)).getD (position t.dimension (t.labels.map ν)) default = -t.lookup ν
  rw [lookup, component, Array.getD_eq_getD_getElem?, Array.getD_eq_getD_getElem?, Array.getElem?_map]
  cases t.components[position t.dimension (t.labels.map ν)]? <;> rfl

/-! ## Equality by label -/

/-- The range of the axes of a tensor with the labels of another one, which has none if that has none. -/
theorem range_eq (t : Tensor) : (if t.labels = [] then 0 else t.dimension) = t.dimension := by
  split
  · next h => exact (t.dimension_of_scalar h).symm
  · rfl

/-- The components of a tabulated tensor. -/
theorem toList_tabulate (f : Assignment → Scalar) : (tabulate t.labels t.nodup_labels t.dimension f).toList =
    t.indices.map fun index => f (.ofIndex t.labels index) := by
  simp only [tabulate, ofFunction, toList, t.range_eq, indices, rank]

theorem add_ok (hlabels : u.labels.Perm v.labels) (hdimension : u.dimension = v.dimension) :
    u.add v = .ok (tabulate u.labels u.nodup_labels u.dimension fun ν => u.lookup ν + v.lookup ν) := by
  have hcheck : u.checkDimensions v = .ok () := if_neg fun h => h.2.2 hdimension
  rw [add, hcheck, if_pos (List.isPerm_iff.mpr hlabels)]
  rfl

theorem add_error (h : ¬ (u.labels.Perm v.labels ∧ u.dimension = v.dimension)) : ∃ error, u.add v = .error error := by
  unfold add
  by_cases hdimension : u.labels ≠ [] ∧ v.labels ≠ [] ∧ u.dimension ≠ v.dimension
  · rw [checkDimensions, if_pos hdimension]
    exact ⟨_, rfl⟩
  · have hlabels : ¬ u.labels.Perm v.labels := by
      refine fun hlabels => h ⟨hlabels, ?_⟩
      by_cases hu : u.labels = []
      · have hv : v.labels = [] := (hu ▸ hlabels).nil_eq.symm
        rw [u.dimension_of_scalar hu, v.dimension_of_scalar hv]
      · by_contra hne
        exact hdimension ⟨hu, fun hv => hu (hv ▸ hlabels).eq_nil, hne⟩
    rw [checkDimensions, if_neg hdimension]
    exact ⟨_, if_neg (mt List.isPerm_iff.mp hlabels)⟩

/-- **Equality by label**: the differences of the components that the same values of the labels select expand
to zero. -/
theorem equals_iff (hlabels : u.labels.Perm v.labels) (hdimension : u.dimension = v.dimension) :
    u.equals v = true ↔ ∀ index ∈ u.indices,
      (u.lookup (.ofIndex u.labels index) - v.lookup (.ofIndex u.labels index)).expand.isZero = true := by
  have hsub : u.sub v = .ok (tabulate u.labels u.nodup_labels u.dimension fun ν => u.lookup ν + v.neg.lookup ν) :=
    add_ok (v := v.neg) hlabels hdimension
  rw [equals, hsub]
  show (tabulate u.labels u.nodup_labels u.dimension fun ν => u.lookup ν + v.neg.lookup ν).isZero = true ↔ _
  rw [isZero, toList_tabulate, List.all_eq_true, List.forall_mem_map]
  simp only [lookup_neg]
  rfl

/-- A tensor that does not change, up to expansion, when its first `m` axes and its last `n` ones are
exchanged. -/
def IsExchangeSymmetric (t : Tensor) (m n : Nat) : Prop :=
  ∀ i ∈ multiIndices t.dimension m, ∀ j ∈ multiIndices t.dimension n,
    (t.component (i ++ j) - t.component (j ++ i)).expand.isZero = true

instance (t : Tensor) (m n : Nat) : Decidable (t.IsExchangeSymmetric m n) :=
  inferInstanceAs (Decidable (∀ i ∈ multiIndices t.dimension m, ∀ j ∈ multiIndices t.dimension n, _ = true))

/-- The same components in the same order. -/
structure SameComponents (u t : Tensor) : Prop where
  dimension : u.dimension = t.dimension
  components : u.components = t.components

theorem SameComponents.component (h : u.SameComponents t) (index : List Nat) :
    u.component index = t.component index := by
  rw [Tensor.component, h.dimension, h.components]
  rfl

/-- **Two blocks of labels exchanged**: the two tensors are equal by label exactly if the components are exchange
symmetric. -/
theorem equals_exchanged_iff {I J : List String} (hu : u.labels = I ++ J) (hv : v.labels = J ++ I)
    (hut : u.SameComponents t) (hvt : v.SameComponents t) :
    u.equals v = true ↔ t.IsExchangeSymmetric I.length J.length := by
  have hn : (I ++ J).Nodup := hu ▸ u.nodup_labels
  have hlabels : u.labels.Perm v.labels := by
    rw [hu, hv]
    exact List.perm_append_comm
  have hlookup : ∀ i ∈ multiIndices t.dimension I.length, ∀ j ∈ multiIndices t.dimension J.length,
      u.lookup (.ofIndex u.labels (i ++ j)) = t.component (i ++ j) ∧
        v.lookup (.ofIndex u.labels (i ++ j)) = t.component (j ++ i) := by
    intro i hi j hj
    obtain ⟨hI, hJ⟩ := map_ofIndex_append hn (mem_multiIndices.mp hi).1 (mem_multiIndices.mp hj).1
    rw [lookup, lookup, hut.component, hvt.component, hu, hv, List.map_append, List.map_append, hI, hJ]
    exact ⟨rfl, rfl⟩
  rw [equals_iff hlabels (hut.dimension.trans hvt.dimension.symm), indices, rank, hut.dimension]
  constructor
  · intro h i hi j hj
    have hindex : i ++ j ∈ multiIndices t.dimension u.labels.length := by
      rw [hu, List.length_append]
      exact mem_multiIndices_add.mpr ⟨i, hi, j, hj, rfl⟩
    have hij := h _ hindex
    rwa [(hlookup i hi j hj).1, (hlookup i hi j hj).2] at hij
  · intro h index hindex
    rw [hu, List.length_append] at hindex
    obtain ⟨i, hi, j, hj, rfl⟩ := mem_multiIndices_add.mp hindex
    rw [(hlookup i hi j hj).1, (hlookup i hi j hj).2]
    exact h i hi j hj

end Tensor

end TensorEquations
