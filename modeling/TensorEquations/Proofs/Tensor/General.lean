import TensorEquations.Proofs.Scalar.Symbols
import TensorEquations.Proofs.Tensor.Related

/-!
# General tensors

* `mem_multiIndices` — the multi-indices of a rank.
* `Tensor.build_eq_ok_iff`, `Tensor.build_ok`, `Tensor.mem_indices_build` — when a tensor is built from a function; its
  labels, its components and its multi-indices.
* `Tensor.general_isPolynomial`, `Tensor.general_isAffine` — **the most general tensor is affine in its own
  symbols.**
* `Tensor.general_expand` — it is expanded already.
-/

namespace TensorEquations

/-! ## Multi-indices -/

theorem mem_multiIndices {dimension : Nat} : ∀ {rank : Nat} {index : List Nat},
    index ∈ multiIndices dimension rank ↔ index.length = rank ∧ ∀ i ∈ index, i < dimension
  | 0, index => by
    rw [multiIndices, List.mem_singleton, List.length_eq_zero_iff]
    constructor
    · rintro rfl
      exact ⟨rfl, List.forall_mem_nil _⟩
    · exact And.left
  | rank + 1, [] => by simp [multiIndices]
  | rank + 1, i :: index => by
    have ih : index ∈ multiIndices dimension rank ↔ index.length = rank ∧ ∀ i ∈ index, i < dimension :=
      mem_multiIndices
    simp only [multiIndices, List.mem_flatMap, List.mem_range, List.mem_map, List.cons.injEq,
      List.length_cons, Nat.add_right_cancel_iff, List.forall_mem_cons]
    constructor
    · rintro ⟨j, hj, other, hother, rfl, rfl⟩
      exact ⟨(ih.mp hother).1, hj, (ih.mp hother).2⟩
    · rintro ⟨hlength, hi, hindex⟩
      exact ⟨i, hi, index, ih.mpr ⟨hlength, hindex⟩, rfl, rfl⟩

theorem Scalar.symbol_expand (name : String) : (symbol name).expand = symbol name :=
  expand_eq_self (symbol_denotes name).isPolynomial
    (.cons rfl (by simp [Number.value]) ⟨by simp [Factor.IsPower, Factor.name],
      List.pairwise_singleton _ _⟩ (List.forall_mem_nil _) .nil)

namespace Tensor

open Scalar (IsAffine Same)

variable {labels : List String} {dimension : Int} {name : String} {f : List Nat → Scalar} {t : Tensor}

/-- **When a tensor is built from a function**, and which one. -/
theorem build_eq_ok_iff : build labels dimension f = .ok t ↔
    ∃ nodup : labels.Nodup, (labels ≠ [] → 0 ≤ dimension) ∧ ofFunction labels nodup dimension.toNat f = t := by
  have hrange : ¬ (dimension < 0 ∧ labels ≠ []) ↔ (labels ≠ [] → 0 ≤ dimension) := by
    rw [and_comm, not_and, not_lt]
  constructor
  · intro h
    obtain ⟨d, hd, h⟩ := bind_eq_ok h
    unfold checkedDimension at hd
    split at hd
    · cases hd
    · next hchecked =>
      cases hd
      split at h
      · next nodup =>
        cases h
        exact ⟨nodup, hrange.mp hchecked, rfl⟩
      · cases h
  · rintro ⟨nodup, hdimension, rfl⟩
    rw [build, checkedDimension, if_neg (hrange.mpr hdimension)]
    exact dif_pos nodup

theorem build_ok (h : build labels dimension f = .ok t) : t.labels = labels ∧ t.toList = t.indices.map f := by
  obtain ⟨nodup, -, rfl⟩ := build_eq_ok_iff.mp h
  exact ⟨rfl, rfl⟩

/-- The multi-indices of a tensor that is built from a function; without labels its dimension does not matter. -/
theorem mem_indices_build (h : build labels dimension f = .ok t) {index : List Nat} :
    index ∈ t.indices ↔ index.length = labels.length ∧ ∀ i ∈ index, (i : Int) < dimension := by
  obtain ⟨nodup, -, rfl⟩ := build_eq_ok_iff.mp h
  refine mem_multiIndices.trans (and_congr_right fun hlength => ?_)
  show (∀ i ∈ index, i < if labels = [] then 0 else dimension.toNat) ↔ _
  split
  · next hlabels =>
    obtain rfl : index = [] := List.length_eq_zero_iff.mp (hlength.trans (congrArg List.length hlabels))
    simp
  · simp only [Int.lt_toNat]

theorem exists_index (h : build labels dimension f = .ok t) {s : Scalar} (hs : s ∈ t.toList) :
    ∃ index, f index = s := by
  rw [(build_ok h).2] at hs
  obtain ⟨index, -, hindex⟩ := List.mem_map.mp hs
  exact ⟨index, hindex⟩

theorem mem_symbols {n : String} : n ∈ t.symbols ↔ ∃ s ∈ t.toList, n ∈ s.symbols := by
  simp only [symbols, Scalar.symbols, List.mem_eraseDups, List.mem_flatMap]

theorem general_labels (h : general labels dimension name = .ok t) : t.labels = labels := (build_ok h).1

theorem general_isPolynomial (h : general labels dimension name = .ok t) : t.IsPolynomial := by
  intro s hs
  obtain ⟨index, rfl⟩ := exists_index h hs
  exact (Scalar.symbol_denotes _).isPolynomial

/-- **The most general tensor is affine in its own symbols.** -/
theorem general_isAffine (h : general labels dimension name = .ok t) :
    t.Related (Same (IsAffine {n | n ∈ t.symbols})) t := by
  refine related_same.mpr fun s hs => ?_
  obtain ⟨index, rfl⟩ := exists_index h hs
  have hdenotes := Scalar.symbol_denotes (componentName name index)
  refine hdenotes.isAffine (MvPolynomial.totalDegree_X _).le fun n hn => ?_
  rw [← hdenotes.poly_eq] at hn
  exact mem_symbols.mpr ⟨_, hs, Scalar.mem_symbols_of_mem_vars hn⟩

theorem map_eq_self {g : Scalar → Scalar} (h : ∀ s ∈ t.toList, g s = s) : t.map g = t := by
  have hcomponents : t.components.map g = t.components := by
    rw [← Array.toList_inj, Array.toList_map]
    exact (List.map_congr_left h).trans (List.map_id _)
  unfold map
  simp only [hcomponents]

/-- The most general tensor is expanded already. -/
theorem general_expand (h : general labels dimension name = .ok t) : t.expand = t := by
  refine map_eq_self fun s hs => ?_
  obtain ⟨index, rfl⟩ := exists_index h hs
  exact Scalar.symbol_expand _

end Tensor

end TensorEquations
