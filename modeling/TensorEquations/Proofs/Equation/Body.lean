import TensorEquations.Proofs.Equation.Solving
import TensorEquations.Proofs.Expression.Vanishing

/-!
# The body of an equation

* `Equation.body?` — the expression that the program of an equation solves.
* `Equation.evaluate_program` — the program evaluates the body and solves the value.
* `Equation.values` — the tensors of the coefficients as values of names.
* `Equation.Image` — the coefficients of an equation with tensors that are images of others.
* `Equation.VanishesAt`, `Equation.Image.vanishesAt` — an equation whose body vanishes at an assignment, and
  **where it vanishes in an image.**
-/

namespace TensorEquations

open Scalar (Maps Same)

/-! ## The program of an equation -/

namespace Equation

/-- The expression between the brackets of the only call in the program of an equation, if its source has
that shape. -/
def body? (e : Equation) : Option Expression :=
  match Interpreter.program e.reading.expression with
  | .ok [.assign _ (.call "HomogeneousSystem" _ [E])] => some E
  | _ => none

variable {e : Equation} {E : Expression} {vs : Bindings}

theorem body?_congr {e e' : Equation} (h : e'.reading = e.reading) : e'.body? = e.body? := by
  unfold body?
  rw [h]

theorem program_of_body (h : e.body? = some E) : ∃ target place,
    Interpreter.program e.reading.expression =
      .ok [.assign target (.call "HomogeneousSystem" place [E])] := by
  unfold body? at h
  split at h
  · rename_i target place _ hprogram
    cases h
    exact ⟨target, place, hprogram⟩
  · cases h

theorem evaluate_homogeneousSystem (vs : Bindings) (place : Place) (E : Expression) :
    (Expression.call "HomogeneousSystem" place [E]).evaluate vs =
      E.evaluate vs >>= Builtin.solveHomogeneous := by
  rw [Expression.evaluate, Expression.evaluateAll, Expression.evaluateAll]
  cases E.evaluate vs <;> rfl

/-- The program evaluates the body and solves the value. -/
theorem evaluate_program (h : e.body? = some E) :
    ((Interpreter.start vs).evaluate e.reading.expression).1 =
      E.evaluate vs >>= Builtin.solveHomogeneous := by
  obtain ⟨target, place, hprogram⟩ := program_of_body h
  unfold Interpreter.evaluate
  rw [hprogram]
  simp only [Interpreter.start, runStatements, Statement.run, evaluate_homogeneousSystem]
  cases E.evaluate vs >>= Builtin.solveHomogeneous <;> rfl

end Equation

/-! ## The values of the names -/

/-- A tensor, or nothing, as a value. -/
def Value.stored : Option Tensor → Value
  | some t => .tensor t
  | none => .nothing

theorem Value.stored_related {S : Scalar → Scalar → Prop} {t? u? : Option Tensor}
    (h : Option.Rel (Tensor.Related S) t? u?) : Value.Related S (.stored t?) (.stored u?) := by
  cases h with
  | some h => exact .tensor h
  | none => exact .nothing

/-- The values of the names of an equation under given tensors of the coefficients. -/
def Equation.values (T : CoefficientKey → Option Tensor) (e : Equation) : Bindings :=
  e.coefficients.foldl (fun vs k => vs.assign k.name (.stored (T k))) []

theorem Registry.bindings_eq (r : Registry) (e : Equation) : r.bindings e = e.values r.tensor? := rfl

namespace Equation

variable {S : Scalar → Scalar → Prop} {T T' : CoefficientKey → Option Tensor} {e e' : Equation}
  {E : Expression} {φ : Poly →ₐ[ℚ] Poly} {ρ : String → ℚ}

theorem values_congr (h : e'.reading = e.reading) : e'.values T = e.values T := by
  unfold values
  rw [coefficients_congr h]

theorem values_eq_of_tensors (h : ∀ k ∈ e.coefficients, T' k = T k) : e.values T' = e.values T := by
  unfold values
  refine List.foldl_ext _ _ _ fun vs k hk => ?_
  rw [h k hk]

theorem values_related (h : ∀ k ∈ e.coefficients, Option.Rel (Tensor.Related S) (T k) (T' k)) :
    Bindings.Related S (e.values T) (e.values T') := by
  unfold values
  generalize e.coefficients = ks at h
  suffices hfold : ∀ vs ws, Bindings.Related S vs ws → Bindings.Related S
      (ks.foldl (fun vs k => vs.assign k.name (.stored (T k))) vs)
      (ks.foldl (fun vs k => vs.assign k.name (.stored (T' k))) ws) from hfold [] [] .nil
  induction ks with
  | nil => exact fun _ _ hvs => hvs
  | cons k ks ih =>
      intro vs ws hvs
      exact ih (fun j hj => h j (List.mem_cons_of_mem _ hj)) _ _
        (hvs.assign (Value.stored_related (h k List.mem_cons_self)))

/-! ## Equations that vanish -/

/-- The coefficients of an equation have tensors of both kinds, and the second ones are images of the first. -/
def Image (φ : Poly →ₐ[ℚ] Poly) (T T' : CoefficientKey → Option Tensor) (e : Equation) : Prop :=
  ∀ k ∈ e.coefficients, ∃ t t', T k = some t ∧ T' k = some t' ∧ t.Related (Maps φ) t'

/-- An equation whose body has a value that vanishes at an assignment. -/
def VanishesAt (T : CoefficientKey → Option Tensor) (ρ : String → ℚ) (e : Equation) : Prop :=
  ∃ E v, e.body? = some E ∧ E.evaluate (e.values T) = .ok v ∧ v.VanishesAt ρ

theorem vanishesAt_congr (h : e'.reading = e.reading) : e'.VanishesAt T ρ ↔ e.VanishesAt T ρ := by
  unfold VanishesAt
  rw [body?_congr h, values_congr h]

theorem Image.values (h : e.Image φ T T') : Bindings.Related (Maps φ) (e.values T) (e.values T') := by
  refine values_related fun k hk => ?_
  obtain ⟨t, t', ht, ht', himage⟩ := h k hk
  rw [ht, ht']
  exact .some himage

/-- **Where an equation vanishes in an image.** -/
theorem Image.vanishesAt (h : e.Image φ T T') (hbody : e.body? = some E) (hE : E.isIn .polynomial = true) :
    e.VanishesAt T' ρ ↔ e.VanishesAt T (pullback φ ρ) := by
  have hagree := Expression.evaluate_maps h.values hE
  unfold VanishesAt
  rw [hbody]
  constructor
  · rintro ⟨E', v', hE', hv', hzero⟩
    obtain rfl := Option.some.inj hE'
    cases hv : E.evaluate (e.values T) with
    | error error =>
        rw [hv, hv'] at hagree
        exact hagree.elim
    | ok v =>
        rw [hv, hv'] at hagree
        exact ⟨E, v, rfl, hv, hagree.vanishesAt.mp hzero⟩
  · rintro ⟨E', v, hE', hv, hzero⟩
    obtain rfl := Option.some.inj hE'
    obtain ⟨v', hv', hrelated⟩ := hagree.exists_ok hv
    exact ⟨E, v', rfl, hv', hrelated.vanishesAt.mpr hzero⟩

end Equation

end TensorEquations
