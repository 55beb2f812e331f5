import TensorEquations.Proofs.Tensor.Matching
import TensorEquations.Proofs.Tensor.Permutation

/-!
# Symmetrizers as projectors

Both symmetrizers average over the permutations of some labels, one of them with signs. What they have in common is
proved once, for the sums over all permutations with the values of a `character`.

* `orbitSum` — the sum over all permutations of labels; `orbitSum_comp` and `orbitSum_of_transforms` say **what a
  permutation does with it**, and what it is for a function that permutations multiply by their signs.
* `Tensor.symmetrized_denotes` — the components that both symmetrizers give.
* `Tensor.Transforms` — a tensor that every permutation of some labels multiplies by its sign, or does not change;
  `Tensor.transforms_iff` tells it by renaming the labels.
* `Tensor.transforms_symmetrized`, `Tensor.Transforms.symmetrized`, `Tensor.symmetrized_unscaled` — **the results
  transform so, and tensors that do are kept.**
* `Tensor.symmetrize_projects`, `Tensor.antisymmetrize_projects` — **the symmetrizers are the projectors onto
  symmetric and onto antisymmetric tensors.**
-/

namespace TensorEquations

open MvPolynomial
open Equiv (Perm)
open Tensor (character)

/-! ## Sums over permutations -/

section OrbitSum

variable {labels : List String} (hn : labels.Nodup) (signed : Bool) {F : Assignment → Poly}

/-- The sum over all permutations of some labels, with their signs if wanted. -/
noncomputable def orbitSum (F : Assignment → Poly) (ν : Assignment) : Poly :=
  ∑ σ : Perm (Fin labels.length), character signed σ • F (ν ∘ labelPermutation hn σ)

theorem comp_labelPermutation (ν : Assignment) (σ τ : Perm (Fin labels.length)) :
    (ν ∘ labelPermutation hn σ) ∘ labelPermutation hn τ = ν ∘ labelPermutation hn (σ * τ) := by
  rw [map_mul, Perm.coe_mul]
  rfl

theorem character_inv (τ : Perm (Fin labels.length)) : character signed τ⁻¹ = character signed τ := by
  rw [map_inv, Int.units_inv_eq_self]

/-- **A permutation multiplies a sum over all permutations by its sign.** -/
theorem orbitSum_comp (F : Assignment → Poly) (ν : Assignment) (τ : Perm (Fin labels.length)) :
    orbitSum hn signed F (ν ∘ labelPermutation hn τ) = character signed τ • orbitSum hn signed F ν := by
  have hterm : ∀ σ, character signed σ • F ((ν ∘ labelPermutation hn τ) ∘ labelPermutation hn σ) =
      character signed τ • character signed (τ * σ) • F (ν ∘ labelPermutation hn (τ * σ)) := by
    intro σ
    have hsquare : character signed τ * (character signed τ * character signed σ) = character signed σ := by
      rw [← mul_assoc, Int.units_mul_self, one_mul]
    rw [comp_labelPermutation, smul_smul, map_mul (character signed), hsquare]
  -- Multiplying all permutations by one of them runs over all of them again.
  unfold orbitSum
  rw [Finset.smul_sum, Finset.sum_congr rfl fun σ _ => hterm σ]
  exact Equiv.sum_comp (Equiv.mulLeft τ) fun σ =>
    character signed τ • character signed σ • F (ν ∘ labelPermutation hn σ)

/-- A function that permutations multiply by their signs is summed as often as there are permutations. -/
theorem orbitSum_of_transforms {ν : Assignment}
    (h : ∀ σ, F (ν ∘ labelPermutation hn σ) = character signed σ • F ν) :
    orbitSum hn signed F ν = C (labels.length.factorial : ℚ) * F ν := by
  have hterm : ∀ σ, character signed σ • F (ν ∘ labelPermutation hn σ) = F ν := fun σ => by
    rw [h, smul_smul, Int.units_mul_self, one_smul]
  unfold orbitSum
  rw [Finset.sum_congr rfl fun σ _ => hterm σ, Finset.sum_const, Finset.card_univ, Fintype.card_perm,
    Fintype.card_fin, nsmul_eq_mul, map_natCast]

end OrbitSum

namespace Tensor

open Scalar (SamePolynomial)

variable {t u : Tensor} {labels : List String} {hn : labels.Nodup} {signed : Bool} {ν : Assignment} {l : String}

/-! ## The two symmetrizers -/

theorem labels_symmetrized (t : Tensor) (labels : List String) (signed scaled : Bool) :
    (t.symmetrized labels signed scaled).labels = t.labels := by
  cases scaled <;> rfl

theorem dimension_symmetrized (t : Tensor) (labels : List String) (signed scaled : Bool) :
    (t.symmetrized labels signed scaled).dimension = t.dimension := by
  cases scaled <;> exact t.range_eq

theorem inRange_symmetrized {scaled : Bool} :
    (t.symmetrized labels signed scaled).InRange ν ↔ t.InRange ν := by
  rw [InRange, labels_symmetrized, dimension_symmetrized]
  rfl

theorem factorial_eq (n : ℕ) : factorial n = n.factorial := by
  induction n with
  | zero => rfl
  | succ n ih => rw [factorial, ih, Nat.factorial_succ]

/-- Labels of a tensor are permuted within it. -/
theorem labelPermutation_mem_labels (hlabels : ∀ l ∈ labels, l ∈ t.labels) (σ : Perm (Fin labels.length))
    (hl : l ∈ t.labels) : labelPermutation hn σ l ∈ t.labels := by
  by_cases h : l ∈ labels
  · exact hlabels _ (labelPermutation_mem hn σ h)
  · rwa [labelPermutation_of_notMem hn σ h]

theorem InRange.comp_labelPermutation (hν : t.InRange ν) (hlabels : ∀ l ∈ labels, l ∈ t.labels)
    (σ : Perm (Fin labels.length)) : t.InRange (ν ∘ labelPermutation hn σ) :=
  fun _ hl => hν _ (labelPermutation_mem_labels hlabels σ hl)

/-- What an average is divided by, as a factor. -/
def normalization (scaled : Bool) (n : ℕ) : ℚ := if scaled then 1 / n.factorial else 1

theorem factorial_mul_normalization (n : ℕ) : C (n.factorial : ℚ) * C (normalization true n) = (1 : Poly) := by
  have hne : (n.factorial : ℚ) ≠ 0 := Nat.cast_ne_zero.mpr n.factorial_ne_zero
  rw [normalization, if_pos rfl, ← C_mul, mul_one_div_cancel hne, C_1]

/-- The components of a sum over exchanges. -/
theorem permutedSum_denotes (ht : t.IsPolynomial) (hn : labels.Nodup) (hlabels : ∀ l ∈ labels, l ∈ t.labels)
    (signed : Bool) (hν : t.InRange ν) : ((t.permutedSum (labels.map fun l => [l]) signed).lookup ν).Denotes
      (orbitSum hn signed (fun μ => (t.lookup μ).poly) ν) := by
  have hblocks : ∀ l ∈ (labels.map fun l => [l]).flatten, l ∈ t.labels := by rwa [flatten_singletons]
  have hterm := permutedTerm_denotes ht hn signed ν
  have hall : ∀ p ∈ arrangements (List.range labels.length),
      (t.permutedTerm (labels.map fun l => [l]) signed ν p).isPolynomial = true := by
    intro p hp
    obtain ⟨σ, rfl⟩ := perm_range_iff.mp (mem_arrangements.mp hp)
    exact (hterm σ).isPolynomial
  -- The values are exchanged the opposite way, so the sum runs over the inverses.
  have hpoly : ∀ σ, (t.permutedTerm (labels.map fun l => [l]) signed ν (arrangement σ)).poly =
      character signed σ⁻¹ • (t.lookup (ν ∘ labelPermutation hn σ⁻¹)).poly := fun σ => by
    rw [(hterm σ).poly_eq, character_inv]
  have hpolys : (((arrangements (List.range labels.length)).map
      (t.permutedTerm (labels.map fun l => [l]) signed ν)).map Scalar.poly).sum =
        orbitSum hn signed (fun μ => (t.lookup μ).poly) ν := by
    rw [List.map_map, sum_arrangements]
    refine (Finset.sum_congr rfl fun σ _ => hpoly σ).trans ?_
    exact Equiv.sum_comp (Equiv.inv _) fun σ => character signed σ • (t.lookup (ν ∘ labelPermutation hn σ)).poly
  rw [lookup_permutedSum hblocks signed hν, List.length_map, ← hpolys]
  exact addUp_denotes (List.forall_mem_map.mpr hall)

theorem scale_denotes {p : Poly} (hν : t.InRange ν) (h : (t.lookup ν).Denotes p) (q : ℚ) :
    ((t.scale (.rational q)).lookup ν).Denotes (C q * p) := by
  rw [scale, lookup_map hν, mul_comm]
  exact h.mul (Scalar.rational_denotes q)

theorem normalize_denotes {p : Poly} (hν : t.InRange ν) (h : (t.lookup ν).Denotes p) (scaled : Bool) (n : ℕ) :
    ((t.normalize scaled n).lookup ν).Denotes (C (normalization scaled n) * p) := by
  cases scaled with
  | false => simpa [normalize, normalization] using h
  | true =>
    rw [normalize, if_pos rfl, factorial_eq]
    exact scale_denotes hν h _

/-- **The components that both symmetrizers give.** -/
theorem symmetrized_denotes (ht : t.IsPolynomial) (hn : labels.Nodup) (hlabels : ∀ l ∈ labels, l ∈ t.labels)
    (signed scaled : Bool) (hν : t.InRange ν) : ((t.symmetrized labels signed scaled).lookup ν).Denotes
      (C (normalization scaled labels.length) * orbitSum hn signed (fun μ => (t.lookup μ).poly) ν) :=
  normalize_denotes (inRange_tabulate.mpr hν) (permutedSum_denotes ht hn hlabels signed hν) scaled labels.length

/-! ## What permutations do with the results -/

/-- Every permutation of some labels multiplies a tensor by its sign, or none changes it. -/
def Transforms (hn : labels.Nodup) (signed : Bool) (t : Tensor) : Prop := ∀ σ ν, t.InRange ν →
  (t.lookup (ν ∘ labelPermutation hn σ)).poly = character signed σ • (t.lookup ν).poly

theorem symmetrized_isPolynomial (ht : t.IsPolynomial) (hn : labels.Nodup) (hlabels : ∀ l ∈ labels, l ∈ t.labels)
    (signed scaled : Bool) : (t.symmetrized labels signed scaled).IsPolynomial :=
  isPolynomial_of_lookup fun _ hν =>
    (symmetrized_denotes ht hn hlabels signed scaled (inRange_symmetrized.mp hν)).isPolynomial

/-- **The results of the symmetrizers transform by sign.** -/
theorem transforms_symmetrized (ht : t.IsPolynomial) (hn : labels.Nodup) (hlabels : ∀ l ∈ labels, l ∈ t.labels)
    (signed scaled : Bool) : (t.symmetrized labels signed scaled).Transforms hn signed := by
  intro σ ν hν
  have hν := inRange_symmetrized.mp hν
  rw [(symmetrized_denotes ht hn hlabels signed scaled (hν.comp_labelPermutation hlabels σ)).poly_eq,
    (symmetrized_denotes ht hn hlabels signed scaled hν).poly_eq, orbitSum_comp, mul_smul_comm]

/-- **Tensors that transform by sign are kept by the average.** -/
theorem Transforms.symmetrized (h : t.Transforms hn signed) (ht : t.IsPolynomial)
    (hlabels : ∀ l ∈ labels, l ∈ t.labels) : t.Matched SamePolynomial (t.symmetrized labels signed true) := by
  refine ⟨by rw [labels_symmetrized], (dimension_symmetrized ..).symm, fun ν hν => ?_⟩
  have hresult := symmetrized_denotes ht hn hlabels signed true hν
  rw [orbitSum_of_transforms hn signed fun σ => h σ ν hν, mul_left_comm, ← mul_assoc, factorial_mul_normalization,
    one_mul] at hresult
  exact Scalar.maps_of_denotes (Scalar.denotes_poly (ht.lookup ν)) hresult

/-- **A sum is as many times the average as there are permutations.** -/
theorem symmetrized_unscaled (ht : t.IsPolynomial) (hn : labels.Nodup) (hlabels : ∀ l ∈ labels, l ∈ t.labels)
    (signed : Bool) : (t.symmetrized labels signed false).Matched SamePolynomial
      ((t.symmetrized labels signed true).scale (.rational labels.length.factorial)) := by
  refine ⟨?_, (dimension_symmetrized ..).trans (dimension_symmetrized ..).symm, fun ν hν => ?_⟩
  · show (t.symmetrized labels signed false).labels.Perm (t.symmetrized labels signed true).labels
    rw [labels_symmetrized, labels_symmetrized]
  · have hν := inRange_symmetrized.mp hν
    have hscaled := scale_denotes (inRange_symmetrized.mpr hν)
      (symmetrized_denotes ht hn hlabels signed true hν) labels.length.factorial
    have hsum := symmetrized_denotes ht hn hlabels signed false hν
    rw [← mul_assoc, factorial_mul_normalization] at hscaled
    rw [normalization, if_neg Bool.false_ne_true, C_1] at hsum
    exact Scalar.maps_of_denotes hsum hscaled

/-! ## Renaming labels among themselves -/

/-- A tensor times the sign of a permutation if signs are wanted. -/
def withSign (signed : Bool) {n : ℕ} (σ : Perm (Fin n)) (t : Tensor) : Tensor :=
  match signed with
  | false => t
  | true => t.scale (.rational (Perm.sign σ : ℤ))

theorem withSign_denotes {n : ℕ} (σ : Perm (Fin n)) (ht : t.IsPolynomial) (hν : t.InRange ν) :
    ((withSign signed σ t).lookup ν).Denotes (character signed σ • (t.lookup ν).poly) := by
  have h := Scalar.denotes_poly (ht.lookup ν)
  cases signed with
  | false => simpa [withSign, character] using h
  | true =>
    have hscaled := scale_denotes hν h (Perm.sign σ : ℤ)
    obtain hsign | hsign := Int.units_eq_one_or (Perm.sign σ)
    · simpa [withSign, character, hsign] using hscaled
    · simpa [withSign, character, hsign] using hscaled

theorem labels_withSign {n : ℕ} (σ : Perm (Fin n)) : (withSign signed σ t).labels = t.labels := by
  cases signed <;> rfl

theorem dimension_withSign {n : ℕ} (σ : Perm (Fin n)) : (withSign signed σ t).dimension = t.dimension := by
  cases signed <;> rfl

theorem withSign_isPolynomial {n : ℕ} (σ : Perm (Fin n)) (ht : t.IsPolynomial) :
    (withSign signed σ t).IsPolynomial := by
  refine isPolynomial_of_lookup fun ν hν => (withSign_denotes σ ht ?_).isPolynomial
  rwa [InRange, labels_withSign, dimension_withSign] at hν

/-- A tensor with some of its labels renamed among themselves. -/
structure IsPermuted (hn : labels.Nodup) (σ : Perm (Fin labels.length)) (t t' : Tensor) : Prop where
  same : t'.SameComponents t
  labels : t'.labels.Perm t.labels
  lookup : ∀ ν, t'.lookup ν = t.lookup (ν ∘ labelPermutation hn σ)

variable {t' : Tensor} {σ : Perm (Fin labels.length)}

theorem IsPermuted.inRange (h : IsPermuted hn σ t t') : t'.InRange ν ↔ t.InRange ν := by
  simp only [InRange, h.labels.mem_iff, h.same.dimension]

theorem IsPermuted.isPolynomial (h : IsPermuted hn σ t t') (ht : t.IsPolynomial) : t'.IsPolynomial := by
  intro s hs
  rw [toList, h.same.components] at hs
  exact ht s hs

theorem exists_permuted (hn : labels.Nodup) (hlabels : ∀ l ∈ labels, l ∈ t.labels)
    (σ : Perm (Fin labels.length)) : ∃ t', t.rename labels (permuted labels σ) = .ok t' ∧ IsPermuted hn σ t t' := by
  have hinjective := (labelPermutation hn σ).injective
  have hperm : (t.labels.map (labelPermutation hn σ)).Perm t.labels := by
    refine (List.perm_ext_iff_of_nodup (t.nodup_labels.map hinjective) t.nodup_labels).mpr fun l => ?_
    rw [List.mem_map]
    constructor
    · rintro ⟨m, hm, rfl⟩
      exact labelPermutation_mem_labels hlabels σ hm
    · intro hl
      exact ⟨_, labelPermutation_mem_labels hlabels σ⁻¹ hl, labelPermutation_apply_inv hn σ l⟩
  obtain ⟨t', hrename, hnew, hsame⟩ := t.rename_ok hlabels (fun l _ => labelPermutation_of_notMem hn σ)
    (t.nodup_labels.map hinjective)
  rw [← permuted_eq_map hn] at hrename
  exact ⟨t', hrename, hsame, hnew ▸ hperm, lookup_relabeled hnew hsame⟩

/-- A renamed tensor that is the original one times the sign. -/
theorem IsPermuted.equals_iff (h : IsPermuted hn σ t t') (ht : t.IsPolynomial) :
    t'.equals (withSign signed σ t) = true ↔ ∀ ν, t.InRange ν →
      (t.lookup (ν ∘ labelPermutation hn σ)).poly = character signed σ • (t.lookup ν).poly := by
  rw [equals_iff_matched (h.isPolynomial ht) (withSign_isPolynomial σ ht)]
  constructor
  · intro hmatched ν hν
    rw [← (withSign_denotes σ ht hν).poly_eq, (hmatched.lookup ν (h.inRange.mpr hν)).poly_eq, h.lookup]
    rfl
  · intro hsign
    refine ⟨labels_withSign (t := t) σ ▸ h.labels, h.same.dimension.trans (dimension_withSign σ).symm, fun ν hν => ?_⟩
    have hν := h.inRange.mp hν
    have hdenotes : ((withSign signed σ t).lookup ν).Denotes (character signed σ • (t.lookup ν).poly) :=
      withSign_denotes σ ht hν
    refine ⟨(h.isPolynomial ht).lookup ν, hdenotes.isPolynomial, ?_⟩
    rw [hdenotes.poly_eq, h.lookup, hsign ν hν]
    rfl

/-- **A tensor transforms by sign exactly if renaming the labels among themselves multiplies it by the sign.** -/
theorem transforms_iff (ht : t.IsPolynomial) (hn : labels.Nodup) (hlabels : ∀ l ∈ labels, l ∈ t.labels) :
    t.Transforms hn signed ↔ ∀ σ, ∃ t', t.rename labels (permuted labels σ) = .ok t' ∧
      t'.equals (withSign signed σ t) = true := by
  refine forall_congr' fun σ => ?_
  obtain ⟨t', hrename, h⟩ := exists_permuted hn hlabels σ
  rw [← h.equals_iff ht]
  constructor
  · exact fun hequals => ⟨t', hrename, hequals⟩
  · rintro ⟨u, hu, hequals⟩
    obtain rfl := Except.ok.inj (hrename.symm.trans hu)
    exact hequals

/-! ## Projectors -/

/-- **What the two projectors have in common.** -/
theorem symmetrized_projects (ht : t.IsPolynomial) (hn : labels.Nodup) (hlabels : ∀ l ∈ labels, l ∈ t.labels)
    (signed : Bool) :
    (∀ σ, ∃ r', (t.symmetrized labels signed true).rename labels (permuted labels σ) = .ok r' ∧
      r'.equals (withSign signed σ (t.symmetrized labels signed true)) = true) ∧
    ((t.symmetrized labels signed true).symmetrized labels signed true).expand =
      (t.symmetrized labels signed true).expand ∧
    ((∀ σ, ∃ t', t.rename labels (permuted labels σ) = .ok t' ∧ t'.equals (withSign signed σ t) = true) →
      (t.symmetrized labels signed true).expand = t.expand) := by
  have hr := symmetrized_isPolynomial ht hn hlabels signed true
  have hrlabels : ∀ l ∈ labels, l ∈ (t.symmetrized labels signed true).labels := by rwa [labels_symmetrized]
  have htransforms := transforms_symmetrized ht hn hlabels signed true
  refine ⟨(transforms_iff hr hn hrlabels).mp htransforms, ?_, fun h => ?_⟩
  · exact (htransforms.symmetrized hr hrlabels).expand_eq (labels_symmetrized ..)
  · exact (((transforms_iff ht hn hlabels).mpr h).symmetrized ht hlabels).expand_eq (labels_symmetrized ..)

/-- **Symmetrization is the projector onto symmetric tensors.** For distinct labels of a tensor of polynomials, the
average exists, is not changed by renaming the labels among themselves, is its own average, and is the tensor itself
if that is not changed by these renamings. The sum that is not divided is `n!` times the average. -/
theorem symmetrize_projects (ht : t.IsPolynomial) (hn : labels.Nodup) (hlabels : ∀ l ∈ labels, l ∈ t.labels) :
    ∃ r, t.symmetrize labels true = .ok r ∧
      (∀ σ, ∃ r', r.rename labels (permuted labels σ) = .ok r' ∧ r'.equals r = true) ∧
      (∃ r', r.symmetrize labels true = .ok r' ∧ r'.expand = r.expand) ∧
      ((∀ σ, ∃ t', t.rename labels (permuted labels σ) = .ok t' ∧ t'.equals t = true) → r.expand = t.expand) ∧
      ∃ u, t.symmetrize labels false = .ok u ∧
        u.expand = (r.scale (.rational labels.length.factorial)).expand := by
  have hrlabels : ∀ l ∈ labels, l ∈ (t.symmetrized labels false true).labels := by rwa [labels_symmetrized]
  obtain ⟨hrename, hidempotent, hkept⟩ := symmetrized_projects ht hn hlabels false
  refine ⟨_, symmetrize_ok hlabels hn true, hrename, ⟨_, symmetrize_ok hrlabels hn true, hidempotent⟩, hkept, _,
    symmetrize_ok hlabels hn false, ?_⟩
  refine ((symmetrized_unscaled ht hn hlabels false).expand_eq ?_).symm
  rw [labels_symmetrized]
  exact labels_symmetrized ..

/-- A matrix of symbols and the same one transposed. -/
def plusTransposed (name : String) : Tensor := .ofFunction ["i", "j"] (by decide) 2 fun index =>
  .symbol (componentName name index) + .symbol (componentName name index.reverse)

/-- Two of three axes are symmetrized, given in the other order; a symmetric matrix is kept. -/
theorem symmetrize_projects_two :
    let T := symbolic ["i", "j", "k"] (by decide) 2 "T"
    let S := plusTransposed "S"
    (∃ r r', T.symmetrize ["k", "i"] true = .ok r ∧ r.rename ["k", "i"] ["i", "k"] = .ok r' ∧ r'.equals r = true) ∧
      ∃ s, S.symmetrize ["i", "j"] true = .ok s ∧ s.expand = S.expand := by
  intro T S
  have hpolynomial : S.IsPolynomial := by
    intro s hs
    obtain ⟨index, -, rfl⟩ := List.mem_map.mp hs
    exact ((Scalar.symbol_denotes _).add (Scalar.symbol_denotes _)).isPolynomial
  have hkept : ∀ σ : Perm (Fin 2), ∃ t', S.rename ["i", "j"] (permuted ["i", "j"] σ) = .ok t' ∧ t'.equals S = true := by
    have htwo : ∀ σ : Perm (Fin 2), σ = 1 ∨ σ = Equiv.swap 0 1 := by decide
    intro σ
    obtain rfl | rfl := htwo σ
    · exact ⟨_, rfl, by decide +kernel⟩
    · exact ⟨_, rfl, by decide +kernel⟩
  have hki : ["k", "i"].Nodup := by decide
  have hij : ["i", "j"].Nodup := by decide
  obtain ⟨r, hr, hrename, -⟩ := symmetrize_projects (symbolic_isPolynomial _ _ _ _ : T.IsPolynomial) hki (by decide)
  obtain ⟨s, hs, -, -, hsame, -⟩ := symmetrize_projects hpolynomial hij (by decide)
  obtain ⟨r', hr', hequals⟩ := hrename (Equiv.swap (0 : Fin 2) 1)
  exact ⟨⟨r, r', hr, hr', hequals⟩, s, hs, hsame hkept⟩

/-! ## Pairs of labels -/

/-- A sum over the two permutations of two labels. -/
theorem orbitSum_pair {l m : String} (hlm : [l, m].Nodup) (signed : Bool) (F : Assignment → Poly) (ν : Assignment) :
    orbitSum hlm signed F ν = F ν + (if signed then -1 else 1) * F (ν ∘ Equiv.swap l m) := by
  have huniv : (Finset.univ : Finset (Perm (Fin 2))) = {1, Equiv.swap 0 1} := by decide
  have hsum : ∀ f : Perm (Fin 2) → Poly, ∑ σ, f σ = f 1 + f (Equiv.swap 0 1) := fun f => by
    rw [huniv, Finset.sum_pair (by decide)]
  have hswap : labelPermutation hlm (Equiv.swap (0 : Fin 2) 1) = Equiv.swap l m :=
    labelPermutation_swap hlm (0 : Fin 2) (1 : Fin 2)
  have hsign : Perm.sign (Equiv.swap (0 : Fin 2) 1) = -1 := by decide
  refine (hsum fun σ => character signed (n := 2) σ • F (ν ∘ labelPermutation hlm σ)).trans ?_
  rw [hswap, map_one]
  cases signed <;> simp [character, hsign]

/-- Exchanging two of the labels changes the sign. -/
theorem Transforms.lookup_swap (h : t.Transforms hn true) {l m : String} (hl : l ∈ labels) (hm : m ∈ labels)
    (hlm : l ≠ m) (hν : t.InRange ν) : (t.lookup (ν ∘ Equiv.swap l m)).poly = -(t.lookup ν).poly := by
  obtain ⟨i, rfl⟩ := List.mem_iff_get.mp hl
  obtain ⟨j, rfl⟩ := List.mem_iff_get.mp hm
  have hij : i ≠ j := fun he => hlm (congrArg labels.get he)
  have hswap := h (Equiv.swap i j) ν hν
  rw [labelPermutation_swap] at hswap
  simpa [character, Perm.sign_swap hij] using hswap

theorem isZero_of_denotes (h : ∀ ν, t.InRange ν → (t.lookup ν).Denotes 0) : t.isZero = true := by
  rw [isZero, toList_eq_map, List.all_eq_true, List.forall_mem_map]
  intro index hindex
  have hzero := h _ (inRange_ofIndex hindex)
  exact (Scalar.expand_isZero hzero.isPolynomial).mpr hzero.poly_eq

/-- **Antisymmetric tensors vanish when symmetrized over two of the labels.** -/
theorem Transforms.isZero_symmetrized_pair (h : t.Transforms hn true) (ht : t.IsPolynomial)
    (hlabels : ∀ l ∈ labels, l ∈ t.labels) {l m : String} (hl : l ∈ labels) (hm : m ∈ labels) (hlm : l ≠ m)
    (scaled : Bool) : (t.symmetrized [l, m] false scaled).isZero = true := by
  have hpair : [l, m].Nodup := by simpa using hlm
  have hpairlabels : ∀ k ∈ [l, m], k ∈ t.labels := by simpa using ⟨hlabels l hl, hlabels m hm⟩
  refine isZero_of_denotes fun ν hν => ?_
  have hν := inRange_symmetrized.mp hν
  have hdenotes := symmetrized_denotes ht hpair hpairlabels false scaled hν
  rw [orbitSum_pair, h.lookup_swap hl hm hlm hν] at hdenotes
  simpa using hdenotes

/-- **Antisymmetric tensors vanish over more labels than the axes have values.** -/
theorem Transforms.isZero_of_dimension_lt (h : t.Transforms hn true) (ht : t.IsPolynomial)
    (hlabels : ∀ l ∈ labels, l ∈ t.labels) (hd : t.dimension < labels.length) : t.isZero = true := by
  refine isZero_of_denotes fun ν hν => ?_
  -- Two of the labels have one value, and their exchange changes nothing but the sign.
  obtain ⟨i, j, hij, hvalue⟩ := Fintype.exists_ne_map_eq_of_card_lt
    (fun i : Fin labels.length => (⟨ν labels[i], hν _ (hlabels _ (List.getElem_mem _))⟩ : Fin t.dimension))
    (by simpa using hd)
  have hlm : labels[i] ≠ labels[j] := fun he => hij (List.nodup_iff_injective_get.mp hn he)
  have hsame : ν ∘ Equiv.swap labels[i] labels[j] = ν := funext fun l =>
    (Equiv.apply_swap_eq_self (Fin.mk.inj hvalue) l)
  have hneg : (t.lookup (ν ∘ Equiv.swap labels[i] labels[j])).poly = -(t.lookup ν).poly :=
    h.lookup_swap (List.getElem_mem _) (List.getElem_mem _) hlm hν
  rw [hsame] at hneg
  exact ⟨ht.lookup ν, self_eq_neg.mp hneg⟩

/-- **The averages over two labels, without signs and with signs, add up to the tensor.** -/
theorem add_symmetrized_pair (ht : t.IsPolynomial) {l m : String} (hlm : [l, m].Nodup)
    (hlabels : ∀ k ∈ [l, m], k ∈ t.labels) :
    ∃ total, (t.symmetrized [l, m] false true).add (t.symmetrized [l, m] true true) = .ok total ∧
      total.expand = t.expand := by
  have hperm : (t.symmetrized [l, m] false true).labels.Perm (t.symmetrized [l, m] true true).labels := by
    rw [labels_symmetrized, labels_symmetrized]
  have hdimension : (t.symmetrized [l, m] false true).dimension = (t.symmetrized [l, m] true true).dimension := by
    rw [dimension_symmetrized, dimension_symmetrized]
  have hfirst := t.labels_symmetrized [l, m] false true
  refine ⟨_, add_ok hperm hdimension, Matched.expand_eq ⟨List.Perm.of_eq hfirst.symm, ?_, fun ν hν => ?_⟩ hfirst⟩
  · exact ((range_eq _).trans (dimension_symmetrized ..)).symm
  · have hplain := symmetrized_denotes ht hlm hlabels false true hν
    have hsigned := symmetrized_denotes ht hlm hlabels true true hν
    have hhalf : C (normalization true [l, m].length) * 2 = (1 : Poly) := by
      rw [mul_comm, ← factorial_mul_normalization 2]
      rfl
    have htotal : C (normalization true [l, m].length) * orbitSum hlm false (fun μ => (t.lookup μ).poly) ν +
        C (normalization true [l, m].length) * orbitSum hlm true (fun μ => (t.lookup μ).poly) ν =
          (t.lookup ν).poly := by
      rw [orbitSum_pair, orbitSum_pair, if_pos rfl, if_neg Bool.false_ne_true]
      linear_combination (t.lookup ν).poly * hhalf
    rw [lookup_tabulated (dependsOn_add hperm) (inRange_symmetrized.mpr hν)]
    exact Scalar.maps_of_denotes (Scalar.denotes_poly (ht.lookup ν)) (htotal ▸ hplain.add hsigned)

/-- **Antisymmetrization is the projector onto antisymmetric tensors.** For distinct labels of a tensor of
polynomials, the average with signs exists, is multiplied by the sign of a permutation if the labels are renamed
among themselves by it, is its own average, and is the tensor itself if that is multiplied so. It vanishes if it is
symmetrized over two of the labels, and if there are more labels than the axes have values. Over two labels the
averages without signs and with signs add up to the tensor. -/
theorem antisymmetrize_projects (ht : t.IsPolynomial) (hn : labels.Nodup) (hlabels : ∀ l ∈ labels, l ∈ t.labels) :
    ∃ r, t.antisymmetrize labels true = .ok r ∧
      (∀ σ, ∃ r', r.rename labels (permuted labels σ) = .ok r' ∧
        r'.equals (r.scale (.rational (Perm.sign σ : ℤ))) = true) ∧
      (∃ r', r.antisymmetrize labels true = .ok r' ∧ r'.expand = r.expand) ∧
      ((∀ σ, ∃ t', t.rename labels (permuted labels σ) = .ok t' ∧
        t'.equals (t.scale (.rational (Perm.sign σ : ℤ))) = true) → r.expand = t.expand) ∧
      (∀ l ∈ labels, ∀ m ∈ labels, l ≠ m → ∀ scaled, ∃ z, r.symmetrize [l, m] scaled = .ok z ∧ z.isZero = true) ∧
      (t.dimension < labels.length → r.isZero = true) ∧
      (labels.length = 2 → ∃ s total, t.symmetrize labels true = .ok s ∧ s.add r = .ok total ∧
        total.expand = t.expand) := by
  have hr := symmetrized_isPolynomial ht hn hlabels true true
  have hrlabels : ∀ l ∈ labels, l ∈ (t.symmetrized labels true true).labels := by rwa [labels_symmetrized]
  have htransforms := transforms_symmetrized ht hn hlabels true true
  obtain ⟨hrename, hidempotent, hkept⟩ := symmetrized_projects ht hn hlabels true
  refine ⟨_, antisymmetrize_ok hlabels hn true, hrename, ⟨_, antisymmetrize_ok hrlabels hn true, hidempotent⟩, hkept,
    fun l hl m hm hlm scaled => ?_, fun hd => ?_, fun htwo => ?_⟩
  · have hpair : ∀ k ∈ [l, m], k ∈ (t.symmetrized labels true true).labels := by
      simpa using ⟨hrlabels l hl, hrlabels m hm⟩
    exact ⟨_, symmetrize_ok hpair (by simpa using hlm) scaled,
      htransforms.isZero_symmetrized_pair hr hrlabels hl hm hlm scaled⟩
  · exact htransforms.isZero_of_dimension_lt hr hrlabels (by rwa [dimension_symmetrized])
  · obtain ⟨l, m, rfl⟩ := List.length_eq_two.mp htwo
    obtain ⟨total, hadd, hexpand⟩ := add_symmetrized_pair ht hn hlabels
    exact ⟨_, total, symmetrize_ok hlabels hn true, hadd, hexpand⟩

/-- Two of three axes with two values each, given in the other order, and all three of them. -/
theorem antisymmetrize_projects_three :
    let T := symbolic ["i", "j", "k"] (by decide) 2 "T"
    (∃ r r' s z total, T.antisymmetrize ["k", "i"] true = .ok r ∧
      r.rename ["k", "i"] ["i", "k"] = .ok r' ∧ r'.equals (r.scale (.rational (-1))) = true ∧
      r.symmetrize ["i", "k"] true = .ok z ∧ z.isZero = true ∧
      T.symmetrize ["k", "i"] true = .ok s ∧ s.add r = .ok total ∧ total.expand = T.expand) ∧
      ∃ r, T.antisymmetrize ["j", "k", "i"] true = .ok r ∧ r.isZero = true := by
  intro T
  have hT : T.IsPolynomial := symbolic_isPolynomial _ _ _ _
  have hki : ["k", "i"].Nodup := by decide
  have hjki : ["j", "k", "i"].Nodup := by decide
  obtain ⟨r, hr, hrename, -, -, hpair, -, htwo⟩ := antisymmetrize_projects hT hki (by decide)
  obtain ⟨z, hz, -, -, -, -, hzero, -⟩ := antisymmetrize_projects hT hjki (by decide)
  obtain ⟨r', hr', hequals⟩ := hrename (Equiv.swap (0 : Fin 2) 1)
  obtain ⟨y, hy, hyzero⟩ := hpair "i" (by decide) "k" (by decide) (by decide) true
  obtain ⟨s, total, hs, htotal, hexpand⟩ := htwo rfl
  exact ⟨⟨r, r', s, y, total, hr, hr', hequals, hy, hyzero, hs, htotal, hexpand⟩, z, hz, hzero (by decide)⟩

end Tensor

end TensorEquations
