import TensorEquations.Proofs.Equation.Stability
import TensorEquations.Proofs.Session.Effect

/-!
# What every operation of a session keeps

* `Command.Keeps` — the commands that hand on only revisions of the right kind and keep the property when they
  replace a tensor.
* `Session.Effect.forall` — one command, whether it fails or not.
* `Session.Runs.forall` — **in every state of a run of such commands all coefficients have the property.**
-/

namespace TensorEquations

variable {P : Coefficient → Prop} {R : CoefficientKey → Revision → Prop}

/-- A command whose revision is of some kind, or whose tensor may replace that of a coefficient with a property. -/
def Command.Keeps (P : Coefficient → Prop) (R : CoefficientKey → Revision → Prop) : Command → Prop
  | .setTensor _ t => ∀ c c', P c → c.setTensor t = .ok c' → P c'
  | .applyOrDefer m f => R m.key f
  | _ => True

/-- A coefficient that such a command changes. -/
theorem Command.Keeps.changed {c : Command} {d d' : Coefficient} (hc : c.Keeps P R) (h : c.Changes d.key d d')
    (hP : Coefficient.Invariant P R) (hd : P d) : P d' := by
  generalize hk : d.key = k at h
  cases h with
  | setTensor stored => exact hc d d' hd stored
  | lock => exact hP.lock hd
  | unlock => exact hP.unlock hd
  | applyOrDefer taken => exact hP.applyOrDefer hd (hk ▸ hc) taken
  | observe => exact hP.observe _ hd

namespace Session

variable {s s' t : Session} {cs : List Command} {c : Command} (hP : Coefficient.Invariant P R)
include hP

theorem solve_forall (h : ∀ d ∈ s.registry.coefficients, P d) (place : Nat) :
    ∀ d ∈ (s.solve place).1.registry.coefficients, P d := by
  rcases solve_settles s place with ⟨heq, -⟩ | ⟨e, _, -, -, -, heq⟩ <;> rw [heq]
  · exact h
  · exact Registry.forall_solve hP.toStable e h

theorem Effect.forall (heffect : s.Effect c s') (hc : c.Keeps P R) (h : ∀ d ∈ s.registry.coefficients, P d) :
    ∀ d ∈ s'.registry.coefficients, P d := by
  cases heffect with
  | nothing | amends | closes => exact h
  | @adds e =>
      rw [(notify_submits _ _).registry]
      exact Registry.forall_observeAll hP.fresh (fun d hd => hP.observe _ hd) e.coefficients h
  | completes _ found _ completed =>
      rw [(announce_submits _ _ _).registry]
      exact Registry.forall_put h (hP.complete (h _ (Registry.mem_of_find? found)) completed)
  | changes changed found =>
      rw [← Registry.key_of_find? found] at changed
      exact Registry.forall_put h (hc.changed changed hP (h _ (Registry.mem_of_find? found)))
  | notifies place =>
      rw [(notify_submits s place).registry]
      exact h
  | solves => exact solve_forall hP h _

/-- **In every state of a run all coefficients have an invariant property.** -/
theorem Runs.forall {configuration : Configuration} (hrun : Runs (Session.start configuration) cs t)
    (hkeeps : ∀ c ∈ cs, c.Keeps P R) : ∀ d ∈ t.registry.coefficients, P d :=
  hrun.preserves (P := fun s => ∀ d ∈ s.registry.coefficients, P d)
    (fun _ hd => absurd hd List.not_mem_nil)
    (fun _ k h => Registry.forall_register h (hP.fresh k))
    (fun _ _ _ hc heffect h => heffect.forall hP hc h)
    (fun _ place _ _ _ h => solve_forall hP h place) hkeeps

end Session

end TensorEquations
