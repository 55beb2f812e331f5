import TensorEquations.Proofs.Expression.Evaluation

/-!
# Values that vanish

* `Value.components` — the components of a quantity.
* `Value.VanishesAt` — a quantity whose components are zero at an assignment.
* `Value.Related.vanishesAt` — **where the image of a quantity vanishes.**
* `Value.exists_isZero` — a quantity that vanishes everywhere expands to zero.
* `SolvedForm.vanishesAt`, `SolvedForm.pullback_eq` — **the substitution makes the quantity vanish, and
  changes no value where the quantity vanishes already.**
* `Builtin.solveHomogeneous_ok`, `Builtin.solveHomogeneous_affine` — a solved quantity has its components as
  a system in solved form; one of degree at most one that cannot be solved vanishes nowhere.
-/

namespace TensorEquations

open MvPolynomial
open Scalar (Maps Same)

/-! ## Related components -/

/-- A property of the members of two lists that are related one by one. -/
theorem forall_mem_iff_of_forall₂ {α β : Type} {R : α → β → Prop} {p : α → Prop} {q : β → Prop}
    (hpq : ∀ a b, R a b → (q b ↔ p a)) : ∀ {xs : List α} {ys : List β}, List.Forall₂ R xs ys →
    ((∀ y ∈ ys, q y) ↔ ∀ x ∈ xs, p x)
  | [], [], _ => by simp
  | x :: xs, y :: ys, h => by
    obtain ⟨hxy, hs⟩ := List.forall₂_cons.mp h
    rw [List.forall_mem_cons, List.forall_mem_cons, hpq x y hxy, forall_mem_iff_of_forall₂ hpq hs]

theorem Tensor.Related.toList {S : Scalar → Scalar → Prop} {t u : Tensor} (h : t.Related S u) :
    List.Forall₂ S t.toList u.toList := by
  refine List.forall₂_iff_get.mpr ⟨h.size.symm, fun i hi hi' => ?_⟩
  have hcomponent := h.components i
  rw [Array.getD_eq_getD_getElem?, Array.getD_eq_getD_getElem?, Array.getElem?_eq_getElem hi,
    Array.getElem?_eq_getElem hi'] at hcomponent
  exact hcomponent

theorem Scalar.Maps.valueAt_eq {φ : Poly →ₐ[ℚ] Poly} {a b : Scalar} (h : Maps φ a b) (ρ : String → ℚ) :
    b.valueAt ρ = a.valueAt (pullback φ ρ) := by
  rw [valueAt, valueAt, h.poly_eq, eval_algHom]

/-- The values of the components of an image. -/
theorem Tensor.Related.values_eq {φ : Poly →ₐ[ℚ] Poly} {t u : Tensor} (h : t.Related (Maps φ) u)
    (ρ : String → ℚ) : u.toList.map (·.valueAt ρ) = t.toList.map (·.valueAt (pullback φ ρ)) := by
  have hvalues : List.Forall₂ (· = ·) (t.toList.map (·.valueAt (pullback φ ρ))) (u.toList.map (·.valueAt ρ)) := by
    rw [List.forall₂_map_left_iff, List.forall₂_map_right_iff]
    exact h.toList.imp fun a b hab => (hab.valueAt_eq ρ).symm
  exact (List.forall₂_eq_eq_eq ▸ hvalues).symm

namespace Value

/-- The components of a quantity. -/
def components : Value → List Scalar
  | quantity q => q.toTensor.toList
  | _ => []

/-- A quantity whose components are zero at an assignment. -/
structure VanishesAt (ρ : String → ℚ) (v : Value) : Prop where
  quantity : ∃ q, v = .quantity q
  components : ∀ x ∈ v.components, x.valueAt ρ = 0

variable {v w : Value} {ρ : String → ℚ} {φ : Poly →ₐ[ℚ] Poly} {S : Scalar → Scalar → Prop}

theorem Related.quantity (h : Related S v w) : (∃ q, w = .quantity q) ↔ ∃ q, v = .quantity q := by
  cases h with
  | rational q => exact Iff.rfl
  | tensor h => exact ⟨fun _ => ⟨_, rfl⟩, fun _ => ⟨_, rfl⟩⟩
  | substitution _ => exact Iff.rfl
  | labels ls => exact Iff.rfl
  | nothing => exact Iff.rfl

theorem Related.components [Scalar.IsLinearRelation S] (h : Related S v w) :
    List.Forall₂ S v.components w.components := by
  cases h with
  | rational q => exact .cons (Scalar.IsLinearRelation.rational q) .nil
  | tensor h => exact h.toList
  | substitution _ => exact .nil
  | labels ls => exact .nil
  | nothing => exact .nil

/-- **The image of a value vanishes where the value vanishes at the values of the images.** -/
theorem Related.vanishesAt (h : Related (Maps φ) v w) : w.VanishesAt ρ ↔ v.VanishesAt (pullback φ ρ) := by
  have hzero : ∀ a b, Maps φ a b → (b.valueAt ρ = 0 ↔ a.valueAt (pullback φ ρ) = 0) :=
    fun a b hab => hab.valueAt_eq ρ ▸ Iff.rfl
  have hcomponents := forall_mem_iff_of_forall₂ hzero h.components
  exact ⟨fun hw => ⟨h.quantity.mp hw.quantity, hcomponents.mp hw.components⟩,
    fun hv => ⟨h.quantity.mpr hv.quantity, hcomponents.mpr hv.components⟩⟩

theorem IsPolynomial.components (h : v.IsPolynomial) : ∀ x ∈ v.components, x.isPolynomial = true :=
  fun x hx => (List.forall₂_same.mp (Related.components h) x hx).2

/-- A quantity of polynomials that vanishes everywhere expands to zero. -/
theorem exists_isZero (h : v.IsPolynomial) (hv : ∀ ρ, v.VanishesAt ρ) :
    ∃ q, v = .quantity q ∧ q.toTensor.isZero = true := by
  obtain ⟨q, rfl⟩ := (hv fun _ => 0).quantity
  refine ⟨q, rfl, List.all_eq_true.mpr fun x hx => ?_⟩
  refine (Scalar.expand_isZero (h.components x hx)).mpr (MvPolynomial.funext fun ρ => ?_)
  rw [map_zero]
  exact (hv ρ).components x hx

end Value

/-! ## Solving -/

namespace SolvedForm

variable {v : Value} {pairs : List (String × Scalar)} {ρ : String → ℚ}

/-- After the substitution the quantity vanishes everywhere. -/
theorem vanishesAt (h : SolvedForm (v.components.map Scalar.poly) pairs) (hv : ∃ q, v = .quantity q)
    (ρ : String → ℚ) : v.VanishesAt (pullback (Substitution.ofSolved pairs).hom ρ) := by
  refine ⟨hv, fun x hx => ?_⟩
  rw [Scalar.valueAt, ← eval_algHom, h.hom_eq_zero (List.mem_map_of_mem hx), map_zero]

/-- Where the quantity vanishes the substitution changes no value. -/
theorem pullback_eq (h : SolvedForm (v.components.map Scalar.poly) pairs) (hρ : v.VanishesAt ρ) :
    pullback (Substitution.ofSolved pairs).hom ρ = ρ := by
  funext name
  have heval := h.eval_hom (List.forall_mem_map.mpr hρ.components) (X name)
  rwa [eval_X] at heval

end SolvedForm

namespace Builtin

variable {v w : Value}

theorem solveHomogeneous_quantity (q : Quantity) : solveHomogeneous (.quantity q) =
    Value.ofSystem (Substitution.homogeneous (Value.quantity q).components) := by
  cases q <;> rfl

/-- A value that is solved is a quantity whose components are a system in solved form. -/
theorem solveHomogeneous_ok (h : v.IsPolynomial) (hw : solveHomogeneous v = .ok w) :
    (∃ q, v = .quantity q) ∧ ∃ pairs, w = .substitution (.ofSolved pairs) ∧
      SolvedForm (v.components.map Scalar.poly) pairs := by
  obtain ⟨q, rfl⟩ : ∃ q, v = .quantity q := by
    cases h with
    | rational q => exact ⟨_, rfl⟩
    | tensor h => exact ⟨_, rfl⟩
    | substitution _ => cases hw
    | labels ls => cases hw
    | nothing => cases hw
  rw [solveHomogeneous_quantity] at hw
  obtain ⟨s, hs, rfl⟩ := map_eq_ok (mapError_eq_ok hw)
  obtain ⟨-, pairs, rfl, hform⟩ := (Substitution.homogeneous_solvesRows h.components).ok hs
  exact ⟨⟨q, rfl⟩, pairs, rfl, hform⟩

/-- A quantity of degree at most one is solved, or it vanishes nowhere. -/
theorem solveHomogeneous_affine {q : Quantity} (h : (Value.quantity q).IsPolynomial)
    (hd : ∀ x ∈ (Value.quantity q).components, x.poly.totalDegree ≤ 1) :
    (∃ w, solveHomogeneous (.quantity q) = .ok w) ∨
      (∃ error, solveHomogeneous (.quantity q) = .error error) ∧
        ∀ ρ, ¬ (Value.quantity q).VanishesAt ρ := by
  have hrows := Substitution.homogeneous_solvesRows h.components
  rw [solveHomogeneous_quantity]
  cases hs : Substitution.homogeneous (Value.quantity q).components with
  | ok s => exact .inl ⟨_, rfl⟩
  | error e =>
      refine .inr ⟨⟨_, rfl⟩, fun ρ hρ => ?_⟩
      rcases (hrows.error hs).1 with ⟨p, hp, hlt⟩ | hno
      · obtain ⟨x, hx, rfl⟩ := List.mem_map.mp hp
        exact absurd (hd x hx) (not_le.mpr hlt)
      · exact hno ρ (List.forall_mem_map.mpr hρ.components)

end Builtin

end TensorEquations
