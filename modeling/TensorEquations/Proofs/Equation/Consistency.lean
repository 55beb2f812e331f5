import TensorEquations.Proofs.Equation.Stability

/-!
# Consistent registries

* `Registry.IsConsistent` — no free coefficient has a queue, and every finished one has a tensor.
* `Registry.evaluate_frame` — an evaluation takes no lock and finishes no coefficient.
-/

namespace TensorEquations.Registry

/-- Every coefficient is consistent. -/
def IsConsistent (r : Registry) : Prop := ∀ c ∈ r.coefficients, c.IsConsistent

variable {r r' : Registry} {k : CoefficientKey} {e : Equation} {s : Substitution}

theorem isConsistent_iff : r.IsConsistent ↔ ∀ k c, r.find? k = some c → c.IsConsistent :=
  ⟨fun h _ c hc => h c (mem_of_find? hc), fun h c hc => h c.key c (find?_key hc)⟩

/-! ## What an evaluation leaves alone -/

theorem evaluate_frame {c : Coefficient} (h : r.find? k = some c) (e : Equation) :
    ∃ c', (r.evaluate e).1.find? k = some c' ∧ c'.isLocked = c.isLocked ∧
      c'.isFinished = c.isFinished := by
  have hframe : Coefficient.IsFrame fun c => (c.isLocked, c.isFinished) := ⟨fun _ _ => rfl, fun _ _ => rfl⟩
  have hmap := map_evaluate hframe e k (r := r)
  rw [h, Option.map_some] at hmap
  obtain ⟨c', hc', heq⟩ := Option.map_eq_some_iff.mp hmap
  exact ⟨c', hc', congrArg Prod.fst heq, congrArg Prod.snd heq⟩

theorem keys_hand : ∀ (hs : List (CoefficientKey × Revision)) {r : Registry}, (r.hand hs).1.keys = r.keys
  | [], _ => rfl
  | (k, f) :: hs, r => by
    cases hc : r.find? k with
    | none =>
        rw [hand, hc]
        exact keys_hand hs
    | some c =>
        cases ha : c.applyOrDefer f with
        | error reason =>
            rw [hand, hc]
            simp only [ha]
        | ok taken =>
            rw [hand_cons_some hc ha, keys_hand, keys_put]

theorem keys_evaluate (e : Equation) : (r.evaluate e).1.keys = r.keys := by
  unfold evaluate
  split
  · rename_i g _
    split
    all_goals
      rename_i heq
      exact (congrArg (·.1.keys) heq).symm.trans (keys_hand _)
  · split <;> rfl

/-- An evaluation that queues nothing on the coefficients. -/
def QueuesNothing (r : Registry) (e : Equation) : Prop :=
  ∀ k c c', (r.lockAll e.acquisition).find? k = some c →
    ((r.lockAll e.acquisition).evaluate e).1.find? k = some c' → c'.queue = c.queue

/-- An evaluation that hands nothing on queues nothing. -/
theorem queuesNothing (h : ∀ g, e.given = some g → g.handed = []) : r.QueuesNothing e := by
  intro k c c' hc hc'
  rw [evaluate_quiet h, hc] at hc'
  rw [Option.some.inj hc']

/-- The own coefficients of an equation whose evaluation queues nothing. -/
theorem evaluate_own (hr : r.IsConsistent) (hfree : e.isBlocked r = false) (hquiet : r.QueuesNothing e) :
    ∀ k ∈ e.acquisition, ∀ c', ((r.lockAll e.acquisition).evaluate e).1.find? k = some c' →
      ∃ c, r.find? k = some c ∧ c'.isLocked = true ∧ c'.queue = [] ∧ c'.isFinished = c.isFinished := by
  intro k hk c' hc'
  have hkeys : k ∈ r.keys := by
    rw [← keys_lockAll, ← keys_evaluate e]
    exact mem_keys_iff.mpr ⟨c', hc'⟩
  obtain ⟨c, hc⟩ := mem_keys_iff.mp hkeys
  have hlocked : (r.lockAll e.acquisition).find? k = some c.lock := by
    rw [find?_lockAll, if_pos hk, hc]
    rfl
  obtain ⟨d, hd, hdl, hdf⟩ := evaluate_frame hlocked e
  obtain rfl := Option.some.inj (hc'.symm.trans hd)
  have hl := isBlocked_eq_false.mp hfree k (Equation.mem_acquisition.mp hk) c hc
  exact ⟨c, hc, hdl, (hquiet k _ _ hlocked hc').trans ((isConsistent_iff.mp hr k c hc).queue hl), hdf⟩

theorem holdsOwn (hr : r.IsConsistent) (hfree : e.isBlocked r = false) (hquiet : r.QueuesNothing e) :
    r.HoldsOwn e := by
  intro k hk c' hc'
  obtain ⟨c, -, hl, hq, -⟩ := evaluate_own hr hfree hquiet k hk c' hc'
  exact ⟨hl, hq⟩

end TensorEquations.Registry
