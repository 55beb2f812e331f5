import TensorEquations.Proofs.Coefficient.Name
import TensorEquations.Proofs.Tensor.General

/-!
# The unknowns of a coefficient

The most general tensor of a coefficient has one symbol for each component. Its name is that of the
coefficient with a multi-index behind it, and such a name may be read in several ways when texts end in
numbers of their own.

* `CoefficientKey.unknowns` — the symbols of the most general tensor.
* `CoefficientKey.Shadows` — a key whose text, taken on by numbers, is the text of another key.
* `CoefficientKey.componentName_eq_iff` — when two components have one name.
* `CoefficientKey.disjoint_unknowns_iff` — **coefficients of different names have no symbol in common unless
  one of them shadows the other.**
* `CoefficientKey.AreIndependent` — different names, and neither key shadows the other; texts without
  underscores are always safe.
-/

namespace TensorEquations

/-! ## The symbols of a general tensor -/

/-- The symbols of a general tensor. -/
theorem Tensor.mem_symbols_general {labels : List String} {dimension : Nat} {name n : String} {t : Tensor}
    (h : general labels dimension name = .ok t) : n ∈ t.symbols ↔ ∃ index : List Nat,
      index.length = labels.length ∧ (∀ i ∈ index, i < dimension) ∧ n = componentName name index := by
  have hindex : ∀ index : List Nat, index ∈ t.indices ↔
      index.length = labels.length ∧ ∀ i ∈ index, i < dimension := by
    intro index
    simp only [mem_indices_build h, Nat.cast_lt]
  rw [mem_symbols, (build_ok h).2]
  constructor
  · rintro ⟨s, hs, hn⟩
    obtain ⟨index, hmem, rfl⟩ := List.mem_map.mp hs
    obtain ⟨hlength, hi⟩ := (hindex index).mp hmem
    exact ⟨index, hlength, hi, Scalar.mem_symbols_symbol.mp hn⟩
  · rintro ⟨index, hlength, hi, rfl⟩
    exact ⟨_, List.mem_map_of_mem ((hindex index).mpr ⟨hlength, hi⟩), Scalar.mem_symbols_symbol.mpr rfl⟩

namespace CoefficientKey

variable {j k : CoefficientKey} {dimension : Nat}

/-! ## Names of components -/

theorem parts_componentName (name : String) (index : List Nat) :
    parts (Tensor.componentName name index) = parts name ++ (index.map Int.ofNat).map numeral := by
  rw [← parts_joined]
  unfold Tensor.componentName
  split
  · rename_i h
    rw [h, List.map_nil, List.map_nil, String.intercalate_singleton]
  · rename_i h
    obtain ⟨i, rest, rfl⟩ := List.exists_cons_of_ne_nil h
    rw [List.map_map]
    exact congrArg parts String.intercalate_cons_cons.symm

/-- The text and the sizes of `k`, taken on by `index`, give the text of `j` taken on by `front`, and the
sizes of `j`. -/
def Extends (j k : CoefficientKey) (front : List Int) (index : List Nat) : Prop :=
  safeId j.id = "_".intercalate (safeId k.id :: front.map toString) ∧
    k.shape.toList ++ index.map Int.ofNat = front ++ j.shape.toList

theorem Extends.length_eq {front : List Int} {index : List Nat} (h : Extends j k front index) :
    front.length = index.length := by
  have hlength := congrArg List.length h.2
  rw [List.length_append, List.length_append, List.length_map] at hlength
  have hj : j.shape.toList.length = 4 := rfl
  have hk : k.shape.toList.length = 4 := rfl
  omega

/-- **When two components have one name.** The shorter multi-index is the end of the longer one. -/
theorem componentName_eq_iff {I J : List Nat} (hle : I.length ≤ J.length) :
    Tensor.componentName j.name I = Tensor.componentName k.name J ↔
      ∃ front index, J = index ++ I ∧ Extends j k front index := by
  have hparts : ∀ (i : CoefficientKey) (index : List Nat), parts (Tensor.componentName i.name index) =
      "Coefficient".toList :: (parts (safeId i.id) ++ (i.shape.toList ++ index.map Int.ofNat).map numeral) := by
    intro i index
    rw [parts_componentName, parts_name, List.map_append]
    simp only [List.cons_append, List.append_assoc]
  have hnumbers : (j.shape.toList ++ I.map Int.ofNat).length ≤ (k.shape.toList ++ J.map Int.ofNat).length := by
    rw [List.length_append, List.length_append, List.length_map, List.length_map]
    exact Nat.add_le_add_left hle 4
  rw [← parts_injective.eq_iff, hparts, hparts, List.cons_inj_right, parts_append_eq_iff hnumbers]
  constructor
  · rintro ⟨front, heq, htext⟩
    obtain ⟨index, rest, rfl, hlength⟩ : ∃ index rest, J = index ++ rest ∧ rest.length = I.length :=
      ⟨J.take (J.length - I.length), J.drop (J.length - I.length), (List.take_append_drop ..).symm, by
        rw [List.length_drop]; omega⟩
    rw [List.map_append, ← List.append_assoc, ← List.append_assoc] at heq
    obtain ⟨hsizes, hrest⟩ := List.append_inj' heq (by rw [List.length_map, List.length_map, hlength])
    rw [List.map_injective_iff.mpr (fun _ _ => Int.ofNat.inj) hrest]
    exact ⟨front, index, rfl, htext, hsizes⟩
  · rintro ⟨front, index, rfl, htext, hsizes⟩
    refine ⟨front, ?_, htext⟩
    rw [List.map_append, ← List.append_assoc, ← List.append_assoc, hsizes]

/-! ## Unknowns -/

/-- The symbols of the most general tensor of a coefficient. -/
def unknowns (dimension : Nat) (k : CoefficientKey) : Set String :=
  {n | ∃ index : List Nat, index.length = k.labels.length ∧ (∀ i ∈ index, i < dimension) ∧
    n = Tensor.componentName k.name index}

theorem mem_symbols_iff {t : Tensor} (h : Tensor.general k.labels dimension k.name = .ok t) {n : String} :
    n ∈ t.symbols ↔ n ∈ k.unknowns dimension := Tensor.mem_symbols_general h

/-- A component of `k` has the name of a component of `j`, which has fewer labels. -/
def Shadows (dimension : Nat) (k j : CoefficientKey) : Prop :=
  ∃ front index, index ≠ [] ∧ (∀ i ∈ index, i < dimension) ∧
    index.length + j.labels.length = k.labels.length ∧ Extends j k front index

theorem Shadows.length_lt (h : Shadows dimension k j) : j.labels.length < k.labels.length := by
  obtain ⟨front, index, hne, -, hlength, -⟩ := h
  have := List.length_pos_iff.mpr hne
  omega

/-- A text that is another one taken on by a number has an underscore. -/
theorem Shadows.underscore_mem (h : Shadows dimension k j) : '_' ∈ (safeId j.id).toList := by
  obtain ⟨front, index, hne, -, -, hextends⟩ := h
  have hfront := hextends.length_eq
  by_contra hno
  have hone : parts (safeId j.id) = [(safeId j.id).toList] := List.splitOn_eq_singleton hno
  have hparts := congrArg List.length (hone.symm.trans (hextends.1 ▸ parts_joined _ _))
  have hpositive := List.length_pos_iff.mpr hne
  have htext := List.length_pos_iff.mpr (List.splitOn_ne_nil '_' (safeId k.id).toList)
  rw [List.length_append, List.length_map, List.length_singleton, parts] at hparts
  omega

/-- The unknowns of a coefficient with fewer labels, or as many. -/
theorem exists_common_iff (hname : j.name ≠ k.name) (hle : j.labels.length ≤ k.labels.length) :
    (∃ n ∈ j.unknowns dimension, n ∈ k.unknowns dimension) ↔ Shadows dimension k j := by
  constructor
  · rintro ⟨n, ⟨I, hI, -, rfl⟩, J, hJ, hrange, hsame⟩
    obtain ⟨front, index, rfl, hextends⟩ := (componentName_eq_iff (by omega)).mp hsame
    rw [List.length_append] at hJ
    refine ⟨front, index, ?_, fun i hi => hrange i (List.mem_append_left _ hi), by omega, hextends⟩
    rintro rfl
    obtain rfl : front = [] := List.length_eq_zero_iff.mp hextends.length_eq
    obtain ⟨htext, hsizes⟩ := hextends
    rw [List.map_nil, String.intercalate_singleton] at htext
    rw [List.map_nil, List.append_nil, List.nil_append] at hsizes
    exact hname (name_eq_iff.mpr ⟨(BlockShape.toList_injective hsizes).symm, htext⟩)
  · rintro ⟨front, index, hne, hrange, hlength, hextends⟩
    obtain ⟨i, hi⟩ := List.exists_mem_of_ne_nil index hne
    have hpositive : 0 < dimension := Nat.zero_lt_of_lt (hrange i hi)
    have hzeros : ∀ i ∈ List.replicate j.labels.length 0, i < dimension :=
      fun i hi => (List.eq_of_mem_replicate hi).symm ▸ hpositive
    have hsame := (componentName_eq_iff (I := List.replicate j.labels.length 0)
      (by rw [List.length_append]; exact Nat.le_add_left ..)).mpr ⟨front, index, rfl, hextends⟩
    refine ⟨_, ⟨_, List.length_replicate, hzeros, rfl⟩, _, ?_, fun i hi => ?_, hsame⟩
    · rw [List.length_append, List.length_replicate, hlength]
    · exact (List.mem_append.mp hi).elim (hrange i) (hzeros i)

/-- **Coefficients of different names have a symbol in common exactly if one of them shadows the other.** -/
theorem disjoint_unknowns_iff (hname : j.name ≠ k.name) :
    Disjoint (j.unknowns dimension) (k.unknowns dimension) ↔
      ¬ Shadows dimension k j ∧ ¬ Shadows dimension j k := by
  have hcommon : ∀ {a b : CoefficientKey}, a.name ≠ b.name → a.labels.length ≤ b.labels.length →
      (Disjoint (a.unknowns dimension) (b.unknowns dimension) ↔
        ¬ Shadows dimension b a ∧ ¬ Shadows dimension a b) := by
    intro a b hname hle
    have hnot : ¬ Shadows dimension a b := fun h => absurd h.length_lt (Nat.not_lt.mpr hle)
    rw [and_iff_left hnot, ← exists_common_iff hname hle, ← Set.not_disjoint_iff, not_not]
  rcases Nat.le_total j.labels.length k.labels.length with hle | hle
  · exact hcommon hname hle
  · rw [disjoint_comm, and_comm]
    exact hcommon hname.symm hle

/-! ## Independent coefficients -/

/-- Coefficients of different names of which neither shadows the other. -/
structure AreIndependent (dimension : Nat) (j k : CoefficientKey) : Prop where
  names : j.name ≠ k.name
  left : ¬ Shadows dimension k j
  right : ¬ Shadows dimension j k

theorem AreIndependent.disjoint (h : AreIndependent dimension j k) :
    Disjoint (j.unknowns dimension) (k.unknowns dimension) :=
  (disjoint_unknowns_iff h.names).mpr ⟨h.left, h.right⟩

/-- **Texts without underscores are always safe.** -/
theorem areIndependent_of_notMem (hname : j.name ≠ k.name) (hj : '_' ∉ (safeId j.id).toList)
    (hk : '_' ∉ (safeId k.id).toList) : AreIndependent dimension j k :=
  ⟨hname, fun h => hj h.underscore_mem, fun h => hk h.underscore_mem⟩

end CoefficientKey

end TensorEquations
