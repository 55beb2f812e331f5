import Mathlib.Data.List.Forall2

/-!
# Agreement of outcomes

* `bind_eq_ok`, `map_eq_ok`, `map_eq_error` — what the outcome of a computation says of its parts.
* `Agree` — two computations that both fail or both have values, which are related.
* `AgreeExactly` — two computations that both fail with one error or both have values, which are related.
* `Agree.bind`, `Agree.map`, `Agree.mapError`, `Agree.mapM`, `Agree.foldlM` — agreement is kept by the
  ways in which computations are put together.
-/

namespace TensorEquations

universe u

/-! ## Outcomes -/

section Outcomes

variable {ε α β : Type u}

theorem bind_eq_ok {x : Except ε α} {f : α → Except ε β} {b : β} (h : (x >>= f) = .ok b) :
    ∃ a, x = .ok a ∧ f a = .ok b := by
  cases x with
  | error e => cases h
  | ok a => exact ⟨a, rfl, h⟩

theorem map_eq_ok {x : Except ε α} {f : α → β} {b : β} (h : x.map f = .ok b) :
    ∃ a, x = .ok a ∧ f a = b := by
  cases x with
  | error e => cases h
  | ok a => exact ⟨a, rfl, Except.ok.inj h⟩

theorem map_eq_error {x : Except ε α} {f : α → β} {e : ε} (h : x.map f = .error e) :
    x = .error e := by
  cases x with
  | error e' => exact congrArg _ (Except.error.inj h)
  | ok a => cases h

theorem mapError_eq_ok {ε' : Type u} {x : Except ε α} {f : ε → ε'} {a : α} (h : x.mapError f = .ok a) :
    x = .ok a := by
  cases x with
  | error e => cases h
  | ok a' => exact congrArg _ (Except.ok.inj h)

end Outcomes

/-! ## Agreement -/

variable {ε δ ε' δ' : Type u} {α β α' β' : Type u}

/-- Both computations fail, or both have values, which are related. -/
def Agree (R : α → β → Prop) : Except ε α → Except δ β → Prop
  | .ok a, .ok b => R a b
  | .error _, .error _ => True
  | _, _ => False

/-- Both computations fail with one error, or both have values, which are related. -/
def AgreeExactly (R : α → β → Prop) : Except ε α → Except ε β → Prop
  | .ok a, .ok b => R a b
  | .error e, .error e' => e = e'
  | _, _ => False

theorem AgreeExactly.exists_ok {R : α → β → Prop} {x : Except ε α} {y : Except ε β} (h : AgreeExactly R x y) {a : α}
    (hx : x = .ok a) : ∃ b, y = .ok b ∧ R a b := by
  subst hx
  cases y with
  | error e => exact h.elim
  | ok b => exact ⟨b, rfl, h⟩

theorem AgreeExactly.ite {R : α → β → Prop} {x x' : Except ε α} {y y' : Except ε β} {p q : Prop} [Decidable p]
    [Decidable q] (hpq : q ↔ p) (h : p → AgreeExactly R x y) (h' : ¬ p → AgreeExactly R x' y') :
    AgreeExactly R (if p then x else x') (if q then y else y') := by
  by_cases hp : p
  · rw [if_pos hp, if_pos (hpq.mpr hp)]
    exact h hp
  · rw [if_neg hp, if_neg (mt hpq.mp hp)]
    exact h' hp

theorem AgreeExactly.mono {R S : α → β → Prop} {x : Except ε α} {y : Except ε β} (h : AgreeExactly R x y)
    (hs : ∀ a b, R a b → S a b) : AgreeExactly S x y := by
  cases x <;> cases y
  case ok.ok a b => exact hs a b h
  all_goals exact h

namespace Agree

variable {R : α → β → Prop} {S : α' → β' → Prop}

theorem ok {a : α} {b : β} (h : R a b) : Agree R (.ok a : Except ε α) (.ok b : Except δ β) := h

theorem error (e : ε) (d : δ) : Agree R (.error e) (.error d) := trivial

/-- A value on the left has a related one on the right. -/
theorem exists_ok {x : Except ε α} {y : Except δ β} (h : Agree R x y) {a : α} (hx : x = .ok a) :
    ∃ b, y = .ok b ∧ R a b := by
  subst hx
  cases y with
  | error d => exact h.elim
  | ok b => exact ⟨b, rfl, h⟩

/-- A failure on the left has one on the right. -/
theorem exists_error {x : Except ε α} {y : Except δ β} (h : Agree R x y) {e : ε} (hx : x = .error e) :
    ∃ d, y = .error d := by
  subst hx
  cases y with
  | error d => exact ⟨d, rfl⟩
  | ok b => exact h.elim

theorem mono {S : α → β → Prop} {x : Except ε α} {y : Except δ β} (h : Agree R x y) (hs : ∀ a b, R a b → S a b) :
    Agree S x y := by
  cases x <;> cases y
  case ok.ok a b => exact hs a b h
  all_goals exact h

/-- A computation agrees with itself if its values are related to themselves. -/
theorem self {R : α → α → Prop} {x : Except ε α} (h : ∀ a, x = .ok a → R a a) : Agree R x x := by
  cases x with
  | error e => exact trivial
  | ok a => exact h a rfl

/-- Related values may be taken as those of the computations. -/
theorem and_eq {x : Except ε α} {y : Except δ β} (h : Agree R x y) :
    Agree (fun a b => x = .ok a ∧ y = .ok b ∧ R a b) x y := by
  cases x with
  | error e =>
      cases y with
      | error d => exact trivial
      | ok b => exact h.elim
  | ok a =>
      cases y with
      | error d => exact h.elim
      | ok b => exact ⟨rfl, rfl, h⟩

theorem ite {x x' : Except ε α} {y y' : Except δ β} {p q : Prop} [Decidable p] [Decidable q]
    (hpq : q ↔ p) (h : Agree R x y) (h' : Agree R x' y') :
    Agree R (if p then x else x') (if q then y else y') := by
  by_cases hp : p
  · rw [if_pos hp, if_pos (hpq.mpr hp)]
    exact h
  · rw [if_neg hp, if_neg (mt hpq.mp hp)]
    exact h'

theorem bind {x : Except ε α} {y : Except δ β} {f : α → Except ε α'} {g : β → Except δ β'}
    (h : Agree R x y) (hf : ∀ a b, R a b → Agree S (f a) (g b)) : Agree S (x >>= f) (y >>= g) := by
  cases x with
  | error e =>
      cases y with
      | error d => exact trivial
      | ok b => exact h.elim
  | ok a =>
      cases y with
      | error d => exact h.elim
      | ok b => exact hf a b h

theorem map {x : Except ε α} {y : Except δ β} {f : α → α'} {g : β → β'} (h : Agree R x y)
    (hf : ∀ a b, R a b → S (f a) (g b)) : Agree S (x.map f) (y.map g) := by
  cases x with
  | error e =>
      cases y with
      | error d => exact trivial
      | ok b => exact h.elim
  | ok a =>
      cases y with
      | error d => exact h.elim
      | ok b => exact hf a b h

theorem mapError {x : Except ε α} {y : Except δ β} (f : ε → ε') (g : δ → δ') (h : Agree R x y) :
    Agree R (x.mapError f) (y.mapError g) := by
  cases x with
  | error e =>
      cases y with
      | error d => exact trivial
      | ok b => exact h.elim
  | ok a =>
      cases y with
      | error d => exact h.elim
      | ok b => exact h

theorem mapM {f : α → Except ε α'} {g : β → Except δ β'} (hf : ∀ a b, R a b → Agree S (f a) (g b)) :
    ∀ {xs : List α} {ys : List β}, List.Forall₂ R xs ys →
      Agree (List.Forall₂ S) (xs.mapM f) (ys.mapM g)
  | [], [], _ => List.Forall₂.nil
  | x :: xs, y :: ys, h => by
    obtain ⟨hxy, hs⟩ := List.forall₂_cons.mp h
    rw [List.mapM_cons, List.mapM_cons]
    exact (hf x y hxy).bind fun _ _ hab => (mapM hf hs).bind fun _ _ habs =>
      Agree.ok (List.Forall₂.cons hab habs)

theorem foldlM {f : α' → α → Except ε α'} {g : β' → β → Except δ β'}
    (hf : ∀ a b x y, S a b → R x y → Agree S (f a x) (g b y)) :
    ∀ {xs : List α} {ys : List β} {a : α'} {b : β'}, List.Forall₂ R xs ys → S a b →
      Agree S (xs.foldlM f a) (ys.foldlM g b)
  | [], [], _, _, _, hab => hab
  | x :: xs, y :: ys, a, b, h, hab => by
    obtain ⟨hxy, hs⟩ := List.forall₂_cons.mp h
    rw [List.foldlM_cons, List.foldlM_cons]
    exact (hf a b x y hab hxy).bind fun _ _ => foldlM hf hs

end Agree

end TensorEquations
