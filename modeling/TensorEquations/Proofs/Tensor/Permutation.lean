import Mathlib.Data.List.NodupEquivFin
import Mathlib.GroupTheory.Perm.Fin
import TensorEquations.Proofs.Tensor.Symmetry

/-!
# Sums over exchanges as sums over a group

The orders of blocks of one label each, as the permutations of the places of the labels.

* `arrangement`, `sum_arrangements` — **a sum over all orders of the first `n` numbers is one over the permutations of
  `Fin n`.**
* `parity_arrangement` — **the sign by inversions is the sign of the permutation.**
* `labelPermutation` — permutations of the places of some labels act on all labels.
* `permuted` — some labels in another order.
* `Tensor.character`, `Tensor.permutedTerm_denotes` — the signs, and the part of a sum over exchanges that belongs to
  a permutation.
-/

namespace TensorEquations

/-! ## All orders of a list -/

section Arrangements

variable {α : Type} {x : α} {xs rest : List α}

theorem perm_of_mem_picks (h : (x, rest) ∈ picks xs) : (x :: rest).Perm xs := by
  induction xs generalizing rest with
  | nil => cases h
  | cons y ys ih =>
    obtain h | h := List.mem_cons.mp h
    · cases h
      exact List.Perm.refl _
    · obtain ⟨⟨z, zs⟩, hz, he⟩ := List.mem_map.mp h
      cases he
      exact (List.Perm.swap y x zs).trans ((ih hz).cons y)

theorem length_of_mem_picks {n : ℕ} (h : (x, rest) ∈ picks xs) (hlength : xs.length = n + 1) : rest.length = n :=
  Nat.succ.inj ((perm_of_mem_picks h).length_eq.trans hlength)

theorem exists_mem_picks (h : x ∈ xs) : ∃ rest, (x, rest) ∈ picks xs := by
  induction xs with
  | nil => cases h
  | cons y ys ih =>
    obtain rfl | h := List.mem_cons.mp h
    · exact ⟨ys, List.mem_cons_self⟩
    · obtain ⟨rest, hrest⟩ := ih h
      exact ⟨y :: rest, List.mem_cons_of_mem _ (List.mem_map.mpr ⟨(x, rest), hrest, rfl⟩)⟩

theorem map_fst_picks (xs : List α) : (picks xs).map Prod.fst = xs := by
  induction xs with
  | nil => rfl
  | cons x xs ih =>
    rw [picks, List.map_cons, List.map_map]
    exact congrArg (x :: ·) ih

/-- The orders of a list are its permutations. -/
theorem mem_arrangements {p : List α} : p ∈ arrangements xs ↔ p.Perm xs := by
  suffices h : ∀ n (xs p : List α), xs.length = n → (p ∈ arrangementsOf n xs ↔ p.Perm xs) from h _ _ _ rfl
  intro n
  induction n with
  | zero =>
    intro xs p hlength
    rw [List.eq_nil_of_length_eq_zero hlength, arrangementsOf, List.mem_singleton, List.perm_nil]
  | succ n ih =>
    intro xs p hlength
    rw [arrangementsOf, List.mem_flatMap]
    constructor
    · rintro ⟨⟨x, rest⟩, hpick, hp⟩
      obtain ⟨q, hq, rfl⟩ := List.mem_map.mp hp
      exact (((ih rest q (length_of_mem_picks hpick hlength)).mp hq).cons x).trans (perm_of_mem_picks hpick)
    · intro hp
      cases p with
      | nil =>
        rw [List.nil_perm.mp hp] at hlength
        cases hlength
      | cons x q =>
        obtain ⟨rest, hpick⟩ := exists_mem_picks (hp.mem_iff.mp List.mem_cons_self)
        have hq := (ih rest q (length_of_mem_picks hpick hlength)).mpr (hp.trans (perm_of_mem_picks hpick).symm).cons_inv
        exact ⟨_, hpick, List.mem_map_of_mem hq⟩

/-- No order stands twice. -/
theorem nodup_arrangements (hn : xs.Nodup) : (arrangements xs).Nodup := by
  suffices h : ∀ n (xs : List α), xs.length = n → xs.Nodup → (arrangementsOf n xs).Nodup from h _ _ rfl hn
  intro n
  induction n with
  | zero => exact fun xs _ _ => List.nodup_singleton _
  | succ n ih =>
    intro xs hlength hn
    rw [arrangementsOf, List.nodup_flatMap]
    constructor
    · rintro ⟨x, rest⟩ hpick
      have hrest := (List.nodup_cons.mp ((perm_of_mem_picks hpick).nodup_iff.mpr hn)).2
      exact (ih rest (length_of_mem_picks hpick hlength) hrest).map List.cons_injective
    · -- Orders with different first elements.
      have hfst : (picks xs).Pairwise fun a b => a.1 ≠ b.1 := by
        rw [← List.pairwise_map (R := (· ≠ ·)), map_fst_picks]
        exact hn
      refine hfst.imp ?_
      rintro ⟨x, _⟩ ⟨y, _⟩ hxy p hp hq
      obtain ⟨_, -, rfl⟩ := List.mem_map.mp hp
      obtain ⟨_, -, hcons⟩ := List.mem_map.mp hq
      exact hxy (List.cons.inj hcons).1.symm

end Arrangements

/-! ## Permutations of places -/

open Equiv (Perm)

/-- A permutation of places as a list of places. -/
def arrangement {n : ℕ} (σ : Perm (Fin n)) : List ℕ := List.ofFn fun i => (σ i : ℕ)

theorem arrangement_injective {n : ℕ} : Function.Injective (arrangement (n := n)) := fun _ _ h =>
  Equiv.ext fun i => Fin.ext (congrFun (List.ofFn_injective h) i)

/-- The numbers in ascending order. -/
theorem arrangement_one {n : ℕ} : arrangement (1 : Perm (Fin n)) = List.range n :=
  List.ext_getElem (by simp [arrangement]) fun i _ _ => by simp [arrangement]

/-- The orders of the first `n` numbers are the permutations of `n` places. -/
theorem perm_range_iff {n : ℕ} {p : List ℕ} : p.Perm (List.range n) ↔ ∃ σ : Perm (Fin n), arrangement σ = p := by
  constructor
  · intro hp
    have hlength : p.length = n := by rw [hp.length_eq, List.length_range]
    have hlt : ∀ i : Fin n, p.get (i.cast hlength.symm) < n := fun i =>
      List.mem_range.mp (hp.mem_iff.mp (List.get_mem p (i.cast hlength.symm)))
    have hinjective : Function.Injective fun i : Fin n => (⟨p.get (i.cast hlength.symm), hlt i⟩ : Fin n) := by
      intro i j hij
      have hget := List.nodup_iff_injective_get.mp (hp.nodup_iff.mpr List.nodup_range) (Fin.mk.inj hij)
      exact Fin.cast_injective _ hget
    refine ⟨Equiv.ofBijective _ (Finite.injective_iff_bijective.mp hinjective), ?_⟩
    exact List.ext_get (by simp [arrangement, hlength]) fun i _ _ => by simp [arrangement]
  · rintro ⟨σ, rfl⟩
    exact arrangement_one ▸ σ.ofFn_comp_perm fun i => (i : ℕ)

/-- **A sum over all orders is a sum over all permutations.** -/
theorem sum_arrangements {M : Type} [AddCommMonoid M] (n : ℕ) (f : List ℕ → M) :
    ((arrangements (List.range n)).map f).sum = ∑ σ : Perm (Fin n), f (arrangement σ) := by
  have hperm : (arrangements (List.range n)).Perm
      ((Finset.univ : Finset (Perm (Fin n))).toList.map arrangement) := by
    rw [List.perm_ext_iff_of_nodup (nodup_arrangements List.nodup_range)
      ((Finset.nodup_toList _).map arrangement_injective)]
    intro p
    rw [mem_arrangements, perm_range_iff, List.mem_map]
    simp
  rw [(hperm.map f).sum_eq, List.map_map]
  exact Finset.sum_map_toList _ _

/-! ## Signs -/

theorem parity_eq (p : List ℕ) : parity p = (-1) ^ inversions p := by
  unfold parity
  rw [neg_one_pow_eq_pow_mod_two]
  obtain h | h := Nat.mod_two_eq_zero_or_one (inversions p)
  · rw [h]
    rfl
  · rw [h]
    rfl

theorem neg_one_pow_countP (x : ℕ) (ys : List ℕ) :
    (-1 : ℤ) ^ ys.countP (· < x) = (ys.map fun y => if y < x then -1 else 1).prod := by
  induction ys with
  | nil => rfl
  | cons y ys ih =>
    rw [List.map_cons, List.prod_cons, ← ih, List.countP_cons]
    by_cases h : y < x <;> simp [h, pow_succ]

/-- Every pair in the wrong order changes the sign. -/
theorem neg_one_pow_inversions : ∀ {n : ℕ} (f : Fin n → ℕ),
    (-1 : ℤ) ^ inversions (List.ofFn f) = ∏ i, ∏ j ∈ Finset.Ioi i, if f j < f i then -1 else 1
  | 0, _ => rfl
  | n + 1, f => by
    rw [List.ofFn_succ, inversions, pow_add, neg_one_pow_countP, List.map_ofFn, List.prod_ofFn,
      neg_one_pow_inversions, Fin.prod_univ_succ, Fin.prod_Ioi_zero]
    simp only [Fin.prod_Ioi_succ]
    rfl

/-- **The sign by inversions is the sign of the permutation.** -/
theorem parity_arrangement {n : ℕ} (σ : Perm (Fin n)) : parity (arrangement σ) = (Perm.sign σ : ℤ) := by
  rw [parity_eq, arrangement, neg_one_pow_inversions, σ.sign_eq_prod_prod_Ioi, Units.coe_prod]
  refine Finset.prod_congr rfl fun i _ => ?_
  rw [Units.coe_prod]
  refine Finset.prod_congr rfl fun j hj => ?_
  have hne : σ i ≠ σ j := σ.injective.ne (Finset.mem_Ioi.mp hj).ne
  obtain h | h := hne.lt_or_gt
  · rw [if_pos h, if_neg (Fin.lt_def.not.mp h.not_gt), Units.val_one]
  · rw [if_neg h.not_gt, if_pos (Fin.lt_def.mp h), Units.val_neg, Units.val_one]

/-! ## Permutations of labels -/

variable {labels : List String} {l : String}

/-- A permutation of the places of some labels, on all labels. -/
def labelPermutation (hn : labels.Nodup) : Perm (Fin labels.length) →* Perm String :=
  Perm.extendDomainHom (hn.getEquiv labels)

@[simp]
theorem labelPermutation_getElem (hn : labels.Nodup) (σ : Perm (Fin labels.length)) (i : Fin labels.length) :
    labelPermutation hn σ labels[i] = labels[σ i] :=
  Perm.extendDomain_apply_image σ (hn.getEquiv labels) i

theorem labelPermutation_of_notMem (hn : labels.Nodup) (σ : Perm (Fin labels.length)) (hl : l ∉ labels) :
    labelPermutation hn σ l = l := Perm.extendDomain_apply_not_subtype σ (hn.getEquiv labels) hl

theorem labelPermutation_mem (hn : labels.Nodup) (σ : Perm (Fin labels.length)) (hl : l ∈ labels) :
    labelPermutation hn σ l ∈ labels := by
  obtain ⟨i, rfl⟩ := List.mem_iff_get.mp hl
  exact labelPermutation_getElem hn σ i ▸ List.getElem_mem _

theorem labelPermutation_apply_inv (hn : labels.Nodup) (σ : Perm (Fin labels.length)) (l : String) :
    labelPermutation hn σ (labelPermutation hn σ⁻¹ l) = l := by
  rw [← Perm.mul_apply, ← map_mul, mul_inv_cancel, map_one, Perm.one_apply]

theorem labelPermutation_inv_apply (hn : labels.Nodup) (σ : Perm (Fin labels.length)) (l : String) :
    labelPermutation hn σ⁻¹ (labelPermutation hn σ l) = l := by
  rw [← Perm.mul_apply, ← map_mul, inv_mul_cancel, map_one, Perm.one_apply]

/-- An exchange of two places exchanges the labels there. -/
theorem labelPermutation_swap (hn : labels.Nodup) (i j : Fin labels.length) :
    labelPermutation hn (Equiv.swap i j) = Equiv.swap labels[i] labels[j] := by
  have hinjective : Function.Injective labels.get := List.nodup_iff_injective_get.mp hn
  ext1 l
  by_cases hl : l ∈ labels
  · obtain ⟨k, rfl⟩ := List.mem_iff_get.mp hl
    exact (labelPermutation_getElem hn _ k).trans (hinjective.map_swap i j k)
  · rw [labelPermutation_of_notMem hn _ hl, Equiv.swap_apply_of_ne_of_ne]
    · exact fun h => hl (h ▸ List.getElem_mem _)
    · exact fun h => hl (h ▸ List.getElem_mem _)

/-- Some labels in another order. -/
def permuted (labels : List String) (σ : Perm (Fin labels.length)) : List String := List.ofFn fun i => labels[σ i]

theorem permuted_eq_map (hn : labels.Nodup) (σ : Perm (Fin labels.length)) :
    permuted labels σ = labels.map (labelPermutation hn σ) := by
  refine List.ext_getElem (by simp [permuted]) fun i hi hi' => ?_
  have hlt : i < labels.length := by simpa using hi'
  rw [List.getElem_map]
  exact (List.getElem_ofFn _).trans (labelPermutation_getElem hn σ ⟨i, hlt⟩).symm

namespace Tensor

/-- Labels that are put in another order take the values in the opposite order. -/
theorem exchanged_permuted (hn : labels.Nodup) (σ : Perm (Fin labels.length)) (l : String) :
    exchanged (permuted labels σ) labels l = labelPermutation hn σ⁻¹ l := by
  have hzip : (permuted labels σ).zip labels = (permuted labels σ).map fun m => (m, labelPermutation hn σ⁻¹ m) := by
    have hpair : (labels.map (labelPermutation hn σ)).zip (labels.map id) =
        labels.map fun m => (labelPermutation hn σ m, id m) := List.zip_map'
    rw [List.map_id] at hpair
    rw [permuted_eq_map hn, hpair, List.map_map]
    exact List.map_congr_left fun m _ => congrArg _ (labelPermutation_inv_apply hn σ m).symm
  rw [exchanged, hzip, lookup_table]
  split
  · rfl
  · next hl =>
    refine (labelPermutation_of_notMem hn _ fun hmem => hl ?_).symm
    rw [permuted_eq_map hn]
    exact List.mem_map.mpr ⟨_, labelPermutation_mem hn σ⁻¹ hmem, labelPermutation_apply_inv hn σ l⟩

/-- The labels that stand at the places of a permutation. -/
theorem flatMap_arrangement (σ : Perm (Fin labels.length)) :
    ((arrangement σ).flatMap fun k => (labels.map fun l => [l]).getD k []) = permuted labels σ := by
  have hmap : ((arrangement σ).map fun k => (labels.map fun l => [l]).getD k []) =
      (permuted labels σ).map fun l => [l] := by
    rw [arrangement, permuted, List.map_ofFn, List.map_ofFn]
    refine congrArg List.ofFn (funext fun i => ?_)
    simp
  rw [List.flatMap_def, hmap, flatten_singletons]

/-- The homomorphism that tells the signs in a sum over exchanges. -/
def character (signed : Bool) {n : ℕ} : Perm (Fin n) →* ℤˣ := if signed then Perm.sign else 1

/-- The part of a sum over exchanges that belongs to a permutation. -/
theorem permutedTerm_denotes {t : Tensor} (ht : t.IsPolynomial) (hn : labels.Nodup) (signed : Bool) (ν : Assignment)
    (σ : Perm (Fin labels.length)) :
    (t.permutedTerm (labels.map fun l => [l]) signed ν (arrangement σ)).Denotes
      (character signed σ • (t.lookup (ν ∘ labelPermutation hn σ⁻¹)).poly) := by
  have hexchanged : exchanged (permuted labels σ) labels = labelPermutation hn σ⁻¹ :=
    funext (exchanged_permuted hn σ)
  have hterm := Scalar.denotes_poly (ht.lookup (ν ∘ labelPermutation hn σ⁻¹))
  simp only [permutedTerm, flatMap_arrangement, flatten_singletons, hexchanged, parity_arrangement]
  cases signed with
  | false => simpa [character] using hterm
  | true =>
    obtain h | h := Int.units_eq_one_or (Perm.sign σ)
    · simpa [character, h] using hterm
    · simpa [character, h] using hterm.neg

end Tensor

end TensorEquations
