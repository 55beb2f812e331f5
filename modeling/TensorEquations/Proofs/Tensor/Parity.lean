import TensorEquations.Proofs.Tensor.Permutation

/-!
# Signs of orders

Orders of the first `n` numbers are put one after another, inverted and changed as lists, and each of these is what
permutations of places do. The number of inversions does not add up when orders are put one after another; the signs
multiply, because they are those of the permutations.

* `composed`, `inverted`, `swapped` — one order after another, the places of the numbers, and two entries exchanged.
* `composed_arrangement`, `inverted_arrangement`, `swapped_arrangement` — **these are the product of permutations,
  the inverse, and the product with an exchange.**
* `parity_is_sign` — **the sign by inversions is multiplicative, the same for the inverse, and turned round by every
  exchange of two entries.**
-/

namespace TensorEquations

open Equiv (Perm)

/-! ## Orders as lists -/

/-- One order after another: at every place what `p` has at the place that `q` names there. -/
def composed (p q : List ℕ) : List ℕ := q.map fun k => p.getD k 0

/-- The places at which an order has the numbers from zero on. -/
def inverted (p : List ℕ) : List ℕ := (List.range p.length).map fun k => p.idxOf k

/-- The entries at two places exchanged. -/
def swapped (p : List ℕ) (i j : ℕ) : List ℕ := (p.set i (p.getD j 0)).set j (p.getD i 0)

variable {n : ℕ}

theorem set_ofFn {α : Type} (f : Fin n → α) (i : Fin n) (x : α) :
    (List.ofFn f).set i x = List.ofFn (Function.update f i x) := by
  refine List.ext_getElem (by simp) fun k _ _ => ?_
  rw [List.getElem_set, List.getElem_ofFn, List.getElem_ofFn, Function.update_apply]
  exact if_congr (by rw [Fin.ext_iff, eq_comm]) rfl rfl

section Arrangement

variable (σ τ : Perm (Fin n))

theorem length_arrangement : (arrangement σ).length = n := List.length_ofFn

theorem nodup_arrangement : (arrangement σ).Nodup :=
  List.nodup_ofFn.mpr (Fin.val_injective.comp σ.injective)

theorem getD_arrangement (i : Fin n) : (arrangement σ).getD i 0 = σ i := by
  rw [List.getD_eq_getElem?_getD, arrangement, List.getElem?_ofFn, dif_pos i.isLt]
  rfl

theorem idxOf_arrangement (k : Fin n) : (arrangement σ).idxOf (k : ℕ) = (σ⁻¹ k : Fin n) := by
  have hlt : (σ⁻¹ k : ℕ) < (arrangement σ).length := (length_arrangement σ).symm ▸ (σ⁻¹ k).isLt
  have hplace : (arrangement σ)[(σ⁻¹ k : ℕ)] = k :=
    (List.getElem_ofFn hlt).trans (congrArg Fin.val (σ.apply_symm_apply k))
  have hidx := (nodup_arrangement σ).idxOf_getElem _ hlt
  rwa [hplace] at hidx

/-! ## The group of orders -/

/-- **One order after another is a product.** -/
theorem composed_arrangement : composed (arrangement σ) (arrangement τ) = arrangement (σ * τ) :=
  calc composed (arrangement σ) (arrangement τ)
      = List.ofFn fun i => (arrangement σ).getD (τ i) 0 := List.map_ofFn ..
    _ = arrangement (σ * τ) := congrArg List.ofFn (funext fun i => getD_arrangement σ (τ i))

/-- **The places of the numbers are the inverse.** -/
theorem inverted_arrangement : inverted (arrangement σ) = arrangement σ⁻¹ :=
  calc inverted (arrangement σ)
      = (arrangement (1 : Perm (Fin n))).map fun k => (arrangement σ).idxOf k := by
        rw [inverted, length_arrangement, arrangement_one]
    _ = List.ofFn fun k : Fin n => (arrangement σ).idxOf (k : ℕ) := List.map_ofFn ..
    _ = arrangement σ⁻¹ := congrArg List.ofFn (funext fun k => idxOf_arrangement σ k)

/-- **Two entries exchanged are the product with an exchange of their places.** -/
theorem swapped_arrangement (i j : Fin n) : swapped (arrangement σ) i j = arrangement (σ * Equiv.swap i j) := by
  rw [swapped, getD_arrangement, getD_arrangement, arrangement, set_ofFn, set_ofFn, Equiv.swap_comm]
  exact congrArg List.ofFn (Equiv.comp_swap_eq_update j i fun k => (σ k : ℕ)).symm

end Arrangement

/-! ## Signs -/

variable {p q : List ℕ}

/-- **The sign by inversions is the sign of a permutation.** For orders of the first `n` numbers, it is that of the
permutation of places. One order after another has the product of the signs, the inverse has the same sign, and an
exchange of two entries turns the sign round. -/
theorem parity_is_sign (hp : p.Perm (List.range n)) (hq : q.Perm (List.range n)) :
    (∃ σ : Perm (Fin n), arrangement σ = p ∧ parity p = (Perm.sign σ : ℤ)) ∧
    parity (composed p q) = parity p * parity q ∧
    (composed p (inverted p) = List.range n ∧ composed (inverted p) p = List.range n ∧
      parity (inverted p) = parity p) ∧
    ∀ i < n, ∀ j < n, i ≠ j → parity (swapped p i j) = -parity p := by
  obtain ⟨σ, rfl⟩ := perm_range_iff.mp hp
  obtain ⟨τ, rfl⟩ := perm_range_iff.mp hq
  refine ⟨⟨σ, rfl, parity_arrangement σ⟩, ?_, ⟨?_, ?_, ?_⟩, fun i hi j hj hij => ?_⟩
  · rw [composed_arrangement, parity_arrangement, parity_arrangement, parity_arrangement, Perm.sign_mul,
      Units.val_mul]
  · rw [inverted_arrangement, composed_arrangement, mul_inv_cancel, arrangement_one]
  · rw [inverted_arrangement, composed_arrangement, inv_mul_cancel, arrangement_one]
  · rw [inverted_arrangement, parity_arrangement, parity_arrangement, Perm.sign_inv]
  · have hne : (⟨i, hi⟩ : Fin n) ≠ ⟨j, hj⟩ := fun h => hij (congrArg Fin.val h)
    have hswapped : swapped (arrangement σ) i j = arrangement (σ * Equiv.swap ⟨i, hi⟩ ⟨j, hj⟩) :=
      swapped_arrangement σ ⟨i, hi⟩ ⟨j, hj⟩
    rw [hswapped, parity_arrangement, parity_arrangement, Perm.sign_mul, Perm.sign_swap hne, mul_neg_one,
      Units.val_neg]

/-- Two orders with three and with five inversions; one after the other has two. -/
theorem parity_is_sign_four :
    parity (composed [2, 0, 3, 1] [3, 1, 2, 0]) = parity [2, 0, 3, 1] * parity [3, 1, 2, 0] ∧
      inversions (composed [2, 0, 3, 1] [3, 1, 2, 0]) ≠ inversions [2, 0, 3, 1] + inversions [3, 1, 2, 0] ∧
      parity (inverted [2, 0, 3, 1]) = parity [2, 0, 3, 1] ∧
      parity (swapped [2, 0, 3, 1] 0 3) = -parity [2, 0, 3, 1] := by
  have hp : [2, 0, 3, 1].Perm (List.range 4) := by decide
  have hq : [3, 1, 2, 0].Perm (List.range 4) := by decide
  obtain ⟨-, hcomposed, ⟨-, -, hinverted⟩, hswapped⟩ := parity_is_sign hp hq
  exact ⟨hcomposed, by decide, hinverted, hswapped 0 (by decide) 3 (by decide) (by decide)⟩

end TensorEquations
