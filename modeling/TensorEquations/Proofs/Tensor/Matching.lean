import TensorEquations.Proofs.Substitution.Homomorphism
import TensorEquations.Proofs.Tensor.Product
import TensorEquations.Proofs.Tensor.Symmetry

/-!
# Tensors matched by label

The order in which the axes of a tensor stand has no part in what operations do with it.

* `Tensor.Matched` — tensors with the same labels, in any order, whose components are related where the same
  values of the labels select them. `Matched Eq` says that only the order of the axes differs.
* `Tensor.matched_iff_aligned` — such a tensor has the components that aligning the other one to its labels gives.
* `Tensor.Matched.related`, `Tensor.equals_iff_matched` — matched tensors with their labels in the same order are
  related, and tensors of polynomials are equal by label exactly if they are matched as polynomials.
* `Tensor.Matched.add`, `Tensor.Matched.rename`, `Tensor.Matched.product` and the others — **operations on matched
  tensors both fail or have matched values.**
* `Tensor.operations_match` — **operations match by label, not by position.**
-/

namespace TensorEquations

open Scalar (IsLinearRelation Maps)

/-- Scalars that stand for one polynomial. -/
abbrev Scalar.SamePolynomial : Scalar → Scalar → Prop := Maps (AlgHom.id ℚ Poly)

namespace Tensor

open Scalar (SamePolynomial)

/-- Tensors with the same labels, in any order, and related components under the same values of the labels. -/
structure Matched (S : Scalar → Scalar → Prop) (t u : Tensor) : Prop where
  labels : t.labels.Perm u.labels
  dimension : t.dimension = u.dimension
  lookup : ∀ ν, t.InRange ν → S (t.lookup ν) (u.lookup ν)

variable {S S' : Scalar → Scalar → Prop} {t t' u u' : Tensor} {ν : Assignment}

theorem Matched.inRange (h : t.Matched S t') : t'.InRange ν ↔ t.InRange ν := by
  simp only [InRange, h.labels.mem_iff, h.dimension]

/-- **Axes in another order**: the components are those that aligning to the other labels gives. -/
theorem matched_iff_aligned :
    t.Matched Eq u ↔ t.dimension = u.dimension ∧ t.alignedList u.labels = .ok u.toList := by
  have hperm : u.labels.isPerm t.labels = true ↔ t.labels.Perm u.labels := List.isPerm_iff.trans List.perm_comm
  have hrange : t.labels.Perm u.labels → t.dimension = u.dimension → u.indices = t.indices := by
    intro hlabels hdimension
    rw [indices, indices, rank, rank, hlabels.length_eq, hdimension]
  unfold alignedList
  constructor
  · intro h
    refine ⟨h.dimension, ?_⟩
    rw [if_pos (hperm.mpr h.labels), u.toList_eq_map, hrange h.labels h.dimension]
    refine congrArg _ (List.map_congr_left fun index hindex => h.lookup _ (h.inRange.mp ?_))
    exact inRange_ofIndex (hrange h.labels h.dimension ▸ hindex)
  · rintro ⟨hdimension, haligned⟩
    split at haligned
    · next hlabels =>
      have hlabels := hperm.mp hlabels
      have hlist := Except.ok.inj haligned
      rw [u.toList_eq_map, hrange hlabels hdimension, List.map_inj_left] at hlist
      refine ⟨hlabels, hdimension, fun ν hν => ?_⟩
      have hu : u.InRange ν := fun l hl => hdimension ▸ hν l (hlabels.mem_iff.mpr hl)
      have heq := hlist _ (hrange hlabels hdimension ▸ hu.mem_indices)
      rwa [lookup_ofIndex_map fun _ => hlabels.mem_iff.mp, lookup_ofIndex_map fun _ => id] at heq
    · cases haligned

/-! ## Equality -/

/-- Matched tensors with their labels in the same order are related component by component. -/
theorem Matched.related [IsLinearRelation S] (h : t.Matched S u) (hlabels : u.labels = t.labels) : t.Related S u := by
  have hsize : u.components.size = t.components.size := by
    rw [u.size_components, t.size_components, hlabels, h.dimension]
  refine ⟨hlabels, h.dimension.symm, fun i => ?_⟩
  by_cases hi : i < t.components.size
  · rw [t.size_components] at hi
    obtain ⟨index, hindex, rfl⟩ := exists_position hi
    have hindex' : index ∈ u.indices := by
      rw [indices, rank, hlabels, ← h.dimension]
      exact hindex
    have hrelated := h.lookup _ (inRange_ofIndex hindex)
    rw [← component_eq_lookup hindex, ← hlabels, ← component_eq_lookup hindex', component, component,
      ← h.dimension] at hrelated
    exact hrelated
  · rw [Array.getD_eq_getD_getElem?, Array.getD_eq_getD_getElem?, Array.getElem?_eq_none (not_lt.mp hi),
      Array.getElem?_eq_none (hsize ▸ not_lt.mp hi)]
    exact IsLinearRelation.zero

/-- The same polynomials with the axes in another order. -/
theorem Matched.samePolynomial (h : t.Matched Eq u) (ht : t.IsPolynomial) : t.Matched SamePolynomial u :=
  ⟨h.labels, h.dimension, fun ν hν => h.lookup ν hν ▸ Scalar.maps_id (ht.lookup ν)⟩

theorem isPolynomial_of_lookup (h : ∀ ν, t.InRange ν → (t.lookup ν).isPolynomial = true) : t.IsPolynomial := by
  intro s hs
  rw [t.toList_eq_map] at hs
  obtain ⟨index, hindex, rfl⟩ := List.mem_map.mp hs
  exact h _ (inRange_ofIndex hindex)

theorem Matched.isPolynomial_left (h : t.Matched SamePolynomial u) : t.IsPolynomial :=
  isPolynomial_of_lookup fun ν hν => (h.lookup ν hν).left

theorem Matched.isPolynomial_right (h : t.Matched SamePolynomial u) : u.IsPolynomial :=
  isPolynomial_of_lookup fun ν hν => (h.lookup ν (h.inRange.mp hν)).right

/-- **Tensors of polynomials are equal by label exactly if they are matched as polynomials.** -/
theorem equals_iff_matched (ht : t.IsPolynomial) (hu : u.IsPolynomial) :
    t.equals u = true ↔ t.Matched SamePolynomial u := by
  by_cases hfit : t.labels.Perm u.labels ∧ t.dimension = u.dimension
  · have hdifference : ∀ ν, (t.lookup ν - u.lookup ν).expand.isZero = true ↔
        SamePolynomial (t.lookup ν) (u.lookup ν) := by
      intro ν
      have hsub := (Scalar.denotes_poly (ht.lookup ν)).sub (Scalar.denotes_poly (hu.lookup ν))
      rw [Scalar.expand_isZero hsub.isPolynomial, hsub.poly_eq, sub_eq_zero]
      exact ⟨fun h => ⟨ht.lookup ν, hu.lookup ν, h.symm⟩, fun h => h.poly_eq.symm⟩
    rw [equals_iff hfit.1 hfit.2]
    simp only [hdifference]
    refine ⟨fun h => ⟨hfit.1, hfit.2, fun ν hν => ?_⟩, fun h index hindex => h.lookup _ (inRange_ofIndex hindex)⟩
    have hsame := h _ hν.mem_indices
    rwa [lookup_ofIndex_map fun _ => id, lookup_ofIndex_map fun _ => hfit.1.mem_iff.mpr] at hsame
  · obtain ⟨error, herror⟩ := add_error (v := u.neg) hfit
    have hequals : t.equals u = false := by
      rw [equals, sub, herror]
    rw [hequals]
    exact ⟨fun h => absurd h Bool.false_ne_true, fun h => absurd ⟨h.labels, h.dimension⟩ hfit⟩

theorem Matched.equals (h : t.Matched SamePolynomial u) : t.equals u = true :=
  (equals_iff_matched h.isPolynomial_left h.isPolynomial_right).mpr h

theorem Matched.expand_eq (h : t.Matched SamePolynomial u) (hlabels : u.labels = t.labels) : u.expand = t.expand := by
  have hexpand : t.expand.Related Eq u.expand := (h.related hlabels).map fun _ _ hab => hab.expand_eq
  exact hexpand.ext

/-! ## Componentwise operations -/

theorem Matched.map (h : t.Matched S t') {f g : Scalar → Scalar} (hf : ∀ a b, S a b → S' (f a) (g b)) :
    (t.map f).Matched S' (t'.map g) := by
  refine ⟨h.labels, h.dimension, fun ν hν => ?_⟩
  have hν : t.InRange ν := hν
  rw [lookup_map hν, lookup_map (h.inRange.mpr hν)]
  exact hf _ _ (h.lookup ν hν)

section Linear

variable [IsLinearRelation S]

theorem Matched.neg (h : t.Matched S t') : t.neg.Matched S t'.neg := h.map fun _ _ hab => IsLinearRelation.neg hab

theorem Matched.expand (h : t.Matched S t') : t.expand.Matched S t'.expand :=
  h.map fun _ _ hab => IsLinearRelation.expand hab

/-- **Sums of matched tensors.** -/
theorem Matched.add (h : t.Matched S t') (h' : u.Matched S u') : Agree (Matched S) (t.add u) (t'.add u') := by
  by_cases hfit : t.labels.Perm u.labels ∧ t.dimension = u.dimension
  · obtain ⟨hlabels, hdimension⟩ := hfit
    have hlabels' : t'.labels.Perm u'.labels := h.labels.symm.trans (hlabels.trans h'.labels)
    rw [add_ok hlabels hdimension, add_ok hlabels' (h.dimension ▸ h'.dimension ▸ hdimension)]
    refine Agree.ok ⟨h.labels, t.range_eq.trans (h.dimension.trans t'.range_eq.symm), fun ν hν => ?_⟩
    have hν : t.InRange ν := inRange_tabulate.mp hν
    have hνu : u.InRange ν := fun l hl => hdimension ▸ hν l (hlabels.mem_iff.mpr hl)
    rw [lookup_tabulated (dependsOn_add hlabels) hν, lookup_tabulated (dependsOn_add hlabels') (h.inRange.mpr hν)]
    exact IsLinearRelation.add (h.lookup ν hν) (h'.lookup ν hνu)
  · have hfit' : ¬ (t'.labels.Perm u'.labels ∧ t'.dimension = u'.dimension) := by
      rw [← h.dimension, ← h'.dimension]
      exact fun hfit' => hfit ⟨h.labels.trans (hfit'.1.trans h'.labels.symm), hfit'.2⟩
    obtain ⟨error, herror⟩ := add_error hfit
    obtain ⟨error', herror'⟩ := add_error hfit'
    rw [herror, herror']
    exact Agree.error _ _

theorem Matched.sub (h : t.Matched S t') (h' : u.Matched S u') : Agree (Matched S) (t.sub u) (t'.sub u') :=
  h.add h'.neg

end Linear

/-! ## Labels -/

/-- **Labels renamed in matched tensors.** -/
theorem Matched.rename (h : t.Matched S t') (old new : List String) :
    Agree (Matched S) (t.rename old new) (t'.rename old new) := by
  have hmissing : (old.filter fun l => !t'.labels.contains l) = old.filter fun l => !t.labels.contains l := by
    refine List.filter_congr fun l _ => ?_
    simp only [List.contains_eq_mem, h.labels.mem_iff]
  have hlabels := h.labels.map (renamed old new)
  unfold Tensor.rename
  simp only [hmissing]
  refine Agree.ite Iff.rfl (Agree.error _ _) (Agree.ite Iff.rfl (Agree.error _ _) ?_)
  by_cases hn : (t.labels.map (renamed old new)).Nodup
  · obtain ⟨r, hr, hrlabels, hrsame⟩ := relabel_ok (t := t) (List.length_map _) hn
    obtain ⟨r', hr', hrlabels', hrsame'⟩ := relabel_ok (t := t') (List.length_map _) (hlabels.nodup_iff.mp hn)
    rw [hr, hr']
    refine Agree.ok ⟨?_, ?_, fun ν hν => ?_⟩
    · rwa [hrlabels, hrlabels']
    · rw [hrsame.dimension, hrsame'.dimension, h.dimension]
    · rw [lookup_relabeled hrlabels hrsame, lookup_relabeled hrlabels' hrsame']
      exact h.lookup _ ((inRange_relabeled hrlabels hrsame).mp hν)
  · rw [relabel, relabel, dif_neg hn, dif_neg (mt hlabels.nodup_iff.mpr hn)]
    exact Agree.error _ _

/-! ## Symmetrization -/

theorem Matched.checkLabels (h : t.Matched S t') (labels : List String) :
    Agree (fun _ _ => ∀ l ∈ labels, l ∈ t.labels) (t.checkLabels labels) (t'.checkLabels labels) := by
  refine checkLabels_agree ?_
  simp only [checkLabels_eq_ok, h.labels.mem_iff]

section Linear

variable [IsLinearRelation S]

theorem Matched.permutedSum (h : t.Matched S t') {blocks : List (List String)}
    (hblocks : ∀ l ∈ blocks.flatten, l ∈ t.labels) (signed : Bool) :
    (t.permutedSum blocks signed).Matched S (t'.permutedSum blocks signed) := by
  refine ⟨h.labels, t.range_eq.trans (h.dimension.trans t'.range_eq.symm), fun ν hν => ?_⟩
  have hν : t.InRange ν := inRange_tabulate.mp hν
  rw [lookup_permutedSum hblocks signed hν,
    lookup_permutedSum (fun l hl => h.labels.mem_iff.mp (hblocks l hl)) signed (h.inRange.mpr hν)]
  refine addUp_related (forall₂_map_related (fun p => ?_) _)
  have hterm := h.lookup (ν ∘ exchanged (p.flatMap fun k => blocks.getD k []) blocks.flatten)
    fun l hl => hν _ (exchanged_mem_labels hblocks hl)
  simp only [permutedTerm]
  split
  · exact IsLinearRelation.neg hterm
  · exact hterm

theorem Matched.normalize (h : t.Matched S t') (scaled : Bool) (n : ℕ) :
    (t.normalize scaled n).Matched S (t'.normalize scaled n) := by
  unfold Tensor.normalize
  split
  · exact h.map fun _ _ hab => IsLinearRelation.scale _ hab
  · exact h

theorem Matched.symmetrize (h : t.Matched S t') (labels : List String) (scaled : Bool) :
    Agree (Matched S) (t.symmetrize labels scaled) (t'.symmetrize labels scaled) :=
  (h.checkLabels labels).bind fun _ _ hlabels =>
    Agree.ok ((h.permutedSum (by rwa [flatten_singletons]) false).normalize scaled _)

theorem Matched.antisymmetrize (h : t.Matched S t') (labels : List String) (scaled : Bool) :
    Agree (Matched S) (t.antisymmetrize labels scaled) (t'.antisymmetrize labels scaled) :=
  (h.checkLabels labels).bind fun _ _ hlabels =>
    Agree.ok ((h.permutedSum (by rwa [flatten_singletons]) true).normalize scaled _)

theorem Matched.blockSymmetrize (h : t.Matched S t') (blocks : List (List String)) (scaled : Bool) :
    Agree (Matched S) (t.blockSymmetrize blocks scaled) (t'.blockSymmetrize blocks scaled) := by
  unfold Tensor.blockSymmetrize
  split
  · exact Agree.ok h
  · refine Agree.ite Iff.rfl trivial ?_
    exact (h.checkLabels _).bind fun _ _ hlabels => Agree.ok ((h.permutedSum hlabels false).normalize scaled _)

end Linear

/-! ## Products -/

theorem Matched.labels_eq_nil (h : t.Matched S t') : t'.labels = [] ↔ t.labels = [] := by
  rw [← List.length_eq_zero_iff, ← List.length_eq_zero_iff, h.labels.length_eq]

theorem Matched.axisRange (h : t.Matched S t') (h' : u.Matched S u') : axisRange t' u' = axisRange t u := by
  simp only [Tensor.axisRange, h.labels_eq_nil, h.dimension, h'.dimension]

/-- The sums over the values of the shared labels are the same polynomials. -/
theorem Matched.polySum_eq (h : t.Matched SamePolynomial t') (h' : u.Matched SamePolynomial u') {n : ℕ}
    (ht : t.labels ≠ [] → n = t.dimension) (hu : u.labels ≠ [] → n = u.dimension)
    (hν : ∀ l ∈ freeLabels t.labels u.labels, ν l < n) :
    polySum n (sharedLabels t'.labels u'.labels) (fun μ => (t'.lookup μ).poly * (u'.lookup μ).poly) ν =
      polySum n (sharedLabels t.labels u.labels) (fun μ => (t.lookup μ).poly * (u.lookup μ).poly) ν := by
  rw [← polySum_perm (sharedLabels_perm h.labels h'.labels)]
  refine polySum_congr_range fun μ hshared hkeep => ?_
  -- A label of either factor is shared, with a value from the sum, or free.
  have hlt : ∀ l, l ∈ t.labels ∨ l ∈ u.labels → μ l < n := by
    intro l hl
    by_cases hs : l ∈ sharedLabels t.labels u.labels
    · exact hshared l hs
    · rw [hkeep l hs]
      refine hν l (mem_freeLabels.mpr ?_)
      rw [mem_sharedLabels] at hs
      tauto
  have hμt : t.InRange μ := fun l hl => ht (List.ne_nil_of_mem hl) ▸ hlt l (.inl hl)
  have hμu : u.InRange μ := fun l hl => hu (List.ne_nil_of_mem hl) ▸ hlt l (.inr hl)
  rw [(h.lookup μ hμt).poly_eq, (h'.lookup μ hμu).poly_eq]
  rfl

/-- Contractions of tensors with axes of one dimension: the sums are taken in another order. -/
theorem Matched.contraction (h : t.Matched SamePolynomial t') (h' : u.Matched SamePolynomial u')
    (hfit : ¬ (t.labels ≠ [] ∧ u.labels ≠ [] ∧ t.dimension ≠ u.dimension)) :
    (contraction t u).Matched SamePolynomial (contraction t' u') := by
  have hfree := freeLabels_perm h.labels h'.labels
  have hempty : freeLabels t'.labels u'.labels = [] ↔ freeLabels t.labels u.labels = [] := by
    rw [← List.length_eq_zero_iff, ← List.length_eq_zero_iff, hfree.length_eq]
  have hdimension : (Tensor.contraction t u).dimension = (Tensor.contraction t' u').dimension := by
    show (if freeLabels t.labels u.labels = [] then 0 else Tensor.axisRange t u) =
      if freeLabels t'.labels u'.labels = [] then 0 else Tensor.axisRange t' u'
    simp only [hempty, h.axisRange h']
  have ht : t.labels ≠ [] → Tensor.axisRange t u = t.dimension := fun ht => if_neg ht
  have hu : u.labels ≠ [] → Tensor.axisRange t u = u.dimension := by
    intro hu
    by_cases hl : t.labels = []
    · exact if_pos hl
    · exact (ht hl).trans (not_not.mp fun hd => hfit ⟨hl, hu, hd⟩)
  refine ⟨hfree, hdimension, fun ν hν => ?_⟩
  have hν' : (Tensor.contraction t' u').InRange ν := fun l hl => hdimension ▸ hν l (hfree.mem_iff.mpr hl)
  have hlt : ∀ l ∈ freeLabels t.labels u.labels, ν l < Tensor.axisRange t u := fun l hl =>
    (hν l hl).trans_eq (if_neg (List.ne_nil_of_mem hl))
  have hsum := sumOver_mul_denotes h.isPolynomial_left h'.isPolynomial_left (Tensor.axisRange t u)
    (sharedLabels t.labels u.labels) ν
  have hsum' := sumOver_mul_denotes h.isPolynomial_right h'.isPolynomial_right (Tensor.axisRange t u)
    (sharedLabels t'.labels u'.labels) ν
  rw [h.polySum_eq h' ht hu hlt] at hsum'
  rw [lookup_contraction hν, lookup_contraction hν', h.axisRange h']
  exact Scalar.maps_of_denotes hsum hsum'

/-- **Products of matched tensors** fail with one error or are matched. -/
theorem Matched.product (h : t.Matched SamePolynomial t') (h' : u.Matched SamePolynomial u') :
    AgreeExactly (Matched SamePolynomial) (t.product u) (t'.product u') := by
  have hshared : sharedLabels t'.labels u'.labels = [] ↔ sharedLabels t.labels u.labels = [] := by
    rw [← List.length_eq_zero_iff, ← List.length_eq_zero_iff, (sharedLabels_perm h.labels h'.labels).length_eq]
  rw [product_eq, product_eq]
  refine AgreeExactly.ite ?_ (fun _ => ?_) fun hfit => AgreeExactly.ite ?_ (fun _ => rfl) fun _ => ?_
  · rw [ne_eq, ne_eq, h.labels_eq_nil, h'.labels_eq_nil, h.dimension, h'.dimension]
  · rw [h.dimension, h'.dimension]
    exact rfl
  · rw [ne_eq, hshared, h.axisRange h']
  · exact h.contraction h' hfit

/-! ## All operations -/

/-- Tensors that the comparison finds equal. -/
def EqualByLabel (a b : Tensor) : Prop := a.equals b = true

/-- Substitutions on matched tensors: what one refuses, it refuses whatever the order of the axes. -/
theorem Matched.apply (h : t.Matched Eq t') (ht : t.IsPolynomial) {s : Substitution}
    (hguard : s.guard (.tensor t) = s.guard (.tensor t')) :
    AgreeExactly (fun q q' => q.toTensor.Matched Eq q'.toTensor ∧
      (s.IsPolynomial → EqualByLabel q.toTensor q'.toTensor)) (s.apply (.tensor t)) (s.apply (.tensor t')) := by
  unfold Substitution.apply
  rw [← hguard]
  cases s.guard (.tensor t) with
  | some reason => exact rfl
  | none =>
    refine ⟨h.map fun _ _ hab => hab ▸ rfl, fun hs => ?_⟩
    have hmap : (t.map s.applyScalar).Matched SamePolynomial (t'.map s.applyScalar) :=
      (h.samePolynomial ht).map fun _ _ hab => Scalar.maps_of_denotes
        (Substitution.applyScalar_denotes hs hab.denotes_left) (Substitution.applyScalar_denotes hs hab.denotes_right)
    exact hmap.equals

/-- **Operations match by label, not by position.** If the axes of tensors of polynomials are put in another order,
each operation fails as before or has a result that is equal by label. The product fails with the same error, and
the other operations, which fail for labels and shapes only, with an error of the same class. A multiple by any
scalar and the result of any substitution have even the same components. -/
theorem operations_match (ht : t.IsPolynomial) (hu : u.IsPolynomial) (hmatched : t.Matched Eq t')
    (hmatched' : u.Matched Eq u') :
    Agree EqualByLabel (t.add u) (t'.add u') ∧ Agree EqualByLabel (t.sub u) (t'.sub u') ∧
    AgreeExactly EqualByLabel (t.product u) (t'.product u') ∧
    EqualByLabel t.neg t'.neg ∧ EqualByLabel t.expand t'.expand ∧
    (∀ factor : Scalar, (t.scale factor).Matched Eq (t'.scale factor) ∧
      (factor.isPolynomial = true → EqualByLabel (t.scale factor) (t'.scale factor))) ∧
    (∀ old new, Agree EqualByLabel (t.rename old new) (t'.rename old new)) ∧
    (∀ labels scaled, Agree EqualByLabel (t.symmetrize labels scaled) (t'.symmetrize labels scaled) ∧
      Agree EqualByLabel (t.antisymmetrize labels scaled) (t'.antisymmetrize labels scaled)) ∧
    (∀ blocks scaled, Agree EqualByLabel (t.blockSymmetrize blocks scaled) (t'.blockSymmetrize blocks scaled)) ∧
    ∀ s : Substitution, s.guard (.tensor t) = s.guard (.tensor t') →
      AgreeExactly (fun q q' => q.toTensor.Matched Eq q'.toTensor ∧
        (s.IsPolynomial → EqualByLabel q.toTensor q'.toTensor)) (s.apply (.tensor t)) (s.apply (.tensor t')) := by
  have h := hmatched.samePolynomial ht
  have h' := hmatched'.samePolynomial hu
  have hequals : ∀ a b : Tensor, a.Matched SamePolynomial b → EqualByLabel a b := fun _ _ => Matched.equals
  refine ⟨(h.add h').mono hequals, (h.sub h').mono hequals, (h.product h').mono hequals, h.neg.equals,
    h.expand.equals, fun factor => ⟨hmatched.map fun _ _ hab => hab ▸ rfl, fun hfactor => ?_⟩,
    fun old new => (h.rename old new).mono hequals, fun labels scaled => ?_,
    fun blocks scaled => (h.blockSymmetrize blocks scaled).mono hequals, fun s => hmatched.apply ht⟩
  · exact (h.map fun _ _ hab => hab.mul (Scalar.maps_id hfactor)).equals
  · exact ⟨(h.symmetrize labels scaled).mono hequals, (h.antisymmetrize labels scaled).mono hequals⟩

/-- A matrix whose components are those of a symbolic one transposed. -/
def transposed (row column : String) (nodup : [row, column].Nodup) (name : String) : Tensor :=
  .ofFunction [row, column] nodup 2 fun index => .symbol (componentName name index.reverse)

/-- Two matrices, and both with their axes exchanged: the products sum over different axes and are equal by label,
and no sum exists either way. -/
theorem operations_match_matrices :
    let A := symbolic ["i", "j"] (by decide) 2 "A"
    let B := symbolic ["j", "k"] (by decide) 2 "B"
    let A' := transposed "j" "i" (by decide) "A"
    let B' := transposed "k" "j" (by decide) "B"
    A.IsPolynomial ∧ B.IsPolynomial ∧ A.Matched Eq A' ∧ B.Matched Eq B' ∧
      (∃ c c', A.product B = .ok c ∧ A'.product B' = .ok c' ∧ EqualByLabel c c') ∧
      ∃ error error', A.add B = .error error ∧ A'.add B' = .error error' := by
  intro A B A' B'
  have hpA : A.IsPolynomial := symbolic_isPolynomial _ _ _ _
  have hpB : B.IsPolynomial := symbolic_isPolynomial _ _ _ _
  have hA : A.Matched Eq A' := matched_iff_aligned.mpr ⟨rfl, by decide +kernel⟩
  have hB : B.Matched Eq B' := matched_iff_aligned.mpr ⟨rfl, by decide +kernel⟩
  obtain ⟨hadd, -, hproduct, -⟩ := operations_match hpA hpB hA hB
  obtain ⟨c, hc, -⟩ := exists_product (a := A) (b := B) (by decide) (fun _ => rfl) (fun _ => rfl)
  obtain ⟨c', hc', hequal⟩ := hproduct.exists_ok hc
  have hlabels : ¬ (A.labels.Perm B.labels ∧ A.dimension = B.dimension) := by decide
  obtain ⟨error, herror⟩ := add_error hlabels
  obtain ⟨error', herror'⟩ := hadd.exists_error herror
  exact ⟨hpA, hpB, hA, hB, ⟨c, c', hc, hc', hequal⟩, error, error', herror, herror'⟩

end Tensor

end TensorEquations
