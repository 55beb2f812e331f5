import TensorEquations.Proofs.Equation.Consistency

/-!
# The standing of coefficients

The observers of a coefficient and whether it is finished change only when it is observed and when it is
completed.

* `Coefficient.standing`, `Registry.standing?` — the observers of a coefficient and whether it is finished.
* `Registry.Retains` — the same coefficients with the same standing.
* `Registry.retains_modify`, `Registry.retains_put` — changes of one coefficient.
* `Registry.retains_solve` — **a solve changes the standing of no coefficient**, whatever its evaluation does.
-/

namespace TensorEquations

/-! ## Coefficients -/

namespace Coefficient

/-- The observers of a coefficient, and whether it is finished. -/
def standing (c : Coefficient) : List Observer × Bool := (c.observers, c.isFinished)

variable {c c' : Coefficient}

theorem lock_standing (c : Coefficient) : c.lock.standing = c.standing := rfl

theorem isFrame_standing : IsFrame standing := ⟨fun _ _ => rfl, fun _ _ => rfl⟩

theorem applyOrDefer_standing {f : Revision} {b : Bool} (h : c.applyOrDefer f = .ok (c', b)) :
    c'.standing = c.standing := isFrame_standing.applyOrDefer h

theorem unlock_standing (c : Coefficient) : c.unlock.1.standing = c.standing := by
  unfold unlock release
  split
  · split <;> rfl
  · rfl

theorem setTensor_frame {t : Tensor} (h : c.setTensor t = .ok c') :
    c'.key = c.key ∧ c'.standing = c.standing := by
  unfold setTensor at h
  split at h
  · cases h
    exact ⟨rfl, rfl⟩
  · cases h

end Coefficient

/-! ## Registries -/

namespace Registry

/-- The standing of the coefficient of a key, if there is one. -/
def standing? (r : Registry) (k : CoefficientKey) : Option (List Observer × Bool) :=
  (r.find? k).map Coefficient.standing

/-- The same coefficients with the same standing. -/
def Retains (r r' : Registry) : Prop := ∀ k, r'.standing? k = r.standing? k

variable {r r' r'' : Registry} {k : CoefficientKey} {c c' : Coefficient} {e : Equation} {s : Substitution}

theorem retains_refl (r : Registry) : r.Retains r := fun _ => rfl

theorem Retains.trans (h : r.Retains r') (h' : r'.Retains r'') : r.Retains r'' :=
  fun k => (h' k).trans (h k)

theorem Retains.find? (h : r.Retains r') (hc : r.find? k = some c) :
    ∃ c', r'.find? k = some c' ∧ c'.standing = c.standing := by
  have hk := h k
  unfold standing? at hk
  rw [hc] at hk
  exact Option.map_eq_some_iff.mp hk

theorem Retains.isFinished (h : r.Retains r') (k : CoefficientKey) : r'.isFinished k = r.isFinished k := by
  have hstanding : ∀ r : Registry, r.isFinished k = (r.standing? k).any Prod.snd := by
    intro r
    unfold Registry.isFinished standing?
    cases r.find? k <;> rfl
  rw [hstanding, hstanding, h k]

theorem retains_modify {f : Coefficient → Coefficient} (hf : ∀ c, (f c).key = c.key)
    (hs : ∀ c, (f c).standing = c.standing) : r.Retains (r.modify k f) := map_modify hf hs

theorem retains_put (hc : r.find? k = some c) (hkey : c'.key = c.key) (hs : c'.standing = c.standing) :
    r.Retains (r.put c') := map_put hc hkey hs

/-! ## Solves -/

theorem retains_lockAll : ∀ (ks : List CoefficientKey) {r : Registry}, r.Retains (r.lockAll ks)
  | [], r => retains_refl r
  | _ :: ks, _ => (retains_modify Coefficient.lock_key Coefficient.lock_standing).trans (retains_lockAll ks)

theorem retains_releaseAll : ∀ (ks : List CoefficientKey) {r : Registry}, r.Retains (r.releaseAll ks).1
  | [], r => retains_refl r
  | k :: ks, r => by
    rw [releaseAll]
    cases hc : r.find? k with
    | none => exact retains_releaseAll ks
    | some c => exact (retains_put hc c.unlock_key c.unlock_standing).trans (retains_releaseAll ks)

/-- **A solve changes the standing of no coefficient.** -/
theorem retains_solve (r : Registry) (e : Equation) : r.Retains (r.solve e).1 := by
  have hlocked : (r.lockAll e.acquisition).Retains ((r.lockAll e.acquisition).solveLocked e).1 :=
    map_solveLocked Coefficient.isFrame_standing e
  rw [solve_fst]
  exact ((retains_lockAll e.acquisition).trans hlocked).trans (retains_releaseAll e.acquisition.reverse)

end Registry

end TensorEquations
