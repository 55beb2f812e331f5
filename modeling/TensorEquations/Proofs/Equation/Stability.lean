import TensorEquations.Proofs.Coefficient.Stability
import TensorEquations.Proofs.Equation.Solving

/-!
# What a solve keeps

* `Registry.forall_hand`, `Registry.forall_carryOut`, `Registry.forall_solve` — **if all coefficients have a stable
  property, they have it after a solve**, whatever its evaluation does and whether it fails or not.
* `Registry.map_hand`, `Registry.map_evaluate`, `Registry.map_solveLocked` — **between taking and releasing the locks
  a solve changes nothing of a coefficient but its tensor and its queue.**
-/

namespace TensorEquations

namespace Registry

variable {r r' : Registry} {k : CoefficientKey} {ks : List CoefficientKey} {e : Equation} {s : Substitution}

/-! ## Stable properties -/

section Stable

variable {P : Coefficient → Prop} {R : CoefficientKey → Revision → Prop} (h : Coefficient.Stable P R)
include h

theorem forall_hand : ∀ (hs : List (CoefficientKey × Revision)) {r : Registry}, (∀ p ∈ hs, R p.1 p.2) →
    (∀ c ∈ r.coefficients, P c) → ∀ c ∈ (r.hand hs).1.coefficients, P c
  | [], _, _, hr => hr
  | (k, f) :: hs, r, hhs, hr => by
    have hrest : ∀ p ∈ hs, R p.1 p.2 := fun p hp => hhs p (List.mem_cons_of_mem _ hp)
    cases hc : r.find? k with
    | none =>
        rw [hand, hc]
        exact forall_hand hs hrest hr
    | some c =>
        cases ha : c.applyOrDefer f with
        | error reason =>
            rw [hand, hc]
            simp only [ha]
            exact hr
        | ok taken =>
            rw [hand_cons_some hc ha]
            refine forall_hand hs hrest (forall_put hr ?_)
            have hf : R c.key f := key_of_find? hc ▸ hhs (k, f) List.mem_cons_self
            exact h.applyOrDefer (hr c (mem_of_find? hc)) hf ha

theorem forall_lockAll : ∀ (ks : List CoefficientKey) {r : Registry}, (∀ c ∈ r.coefficients, P c) →
    ∀ c ∈ (r.lockAll ks).coefficients, P c
  | [], _, hr => hr
  | _ :: ks, _, hr => forall_lockAll ks (forall_modify Coefficient.lock_key hr fun _ => h.lock)

theorem forall_releaseAll : ∀ (ks : List CoefficientKey) {r : Registry}, (∀ c ∈ r.coefficients, P c) →
    ∀ c ∈ (r.releaseAll ks).1.coefficients, P c
  | [], _, hr => hr
  | k :: ks, r, hr => by
    rw [releaseAll]
    cases hc : r.find? k with
    | none => exact forall_releaseAll ks hr
    | some c => exact forall_releaseAll ks (forall_put hr (h.unlock (hr c (mem_of_find? hc))))

/-- New tensors that revisions give to the coefficients of some keys. -/
theorem forall_store {ts : List (CoefficientKey × Tensor)} (hn : (ts.map Prod.fst).Nodup)
    (hts : ∀ p ∈ ts, ∃ t, r.tensor? p.1 = some t ∧ s.update t = .ok p.2) (hr : ∀ c ∈ r.coefficients, P c) :
    ∀ c ∈ (r.store ts).coefficients, P c := by
  intro c hc
  have hfound := find?_key hc
  obtain ⟨hother, hstored⟩ := find?_store ts (r := r) hn
  by_cases hk : c.key ∈ ts.map Prod.fst
  · obtain ⟨p, hp, hpk⟩ := List.mem_map.mp hk
    rw [← hpk, hstored p hp] at hfound
    obtain ⟨d, hd, rfl⟩ := Option.map_eq_some_iff.mp hfound
    obtain ⟨t, ht, hu⟩ := hts p hp
    exact h.store (hr d (mem_of_find? hd)) (h.substitution _ s) ((tensor?_of_find? hd).symm.trans ht) hu
  · rw [hother c.key hk] at hfound
    exact hr c (mem_of_find? hfound)

theorem forall_carryOut (hn : ks.Nodup) (hcarry : r.carryOut s ks = .ok r') (hr : ∀ c ∈ r.coefficients, P c) :
    ∀ c ∈ r'.coefficients, P c := by
  obtain ⟨ts, hts, hcarry⟩ := bind_eq_ok hcarry
  obtain ⟨_, -, hcarry⟩ := bind_eq_ok hcarry
  obtain ⟨hkeys, hupdates⟩ := updates_ok hts
  have hstored := forall_store h (hkeys ▸ hn) hupdates hr
  have hhand := forall_hand h ((r.others ks).map fun c => (c.key, s.update)) (fun p hp => by
    obtain ⟨c, -, rfl⟩ := List.mem_map.mp hp
    exact h.substitution c.key s) hstored
  split at hcarry
  · rename_i heq
    rw [heq] at hhand
    cases hcarry
    exact hhand
  · cases hcarry

theorem forall_evaluate (e : Equation) (hr : ∀ c ∈ r.coefficients, P c) :
    ∀ c ∈ (r.evaluate e).1.coefficients, P c := by
  unfold evaluate
  split
  · split
    all_goals
      rename_i heq
      refine (congrArg Prod.fst heq) ▸ forall_hand h _ (fun p hp => ?_) hr
      obtain ⟨q, -, rfl⟩ := List.mem_map.mp hp
      exact h.substitution q.1 q.2
  · split <;> exact hr

theorem forall_solveLocked (e : Equation) (hr : ∀ c ∈ r.coefficients, P c) :
    ∀ c ∈ (r.solveLocked e).1.coefficients, P c := by
  have hevaluate := forall_evaluate h e hr
  unfold solveLocked
  split
  · rename_i heq
    rwa [heq] at hevaluate
  · rename_i heq
    rw [heq] at hevaluate
    split
    · rename_i hcarry
      exact forall_carryOut h e.nodup_acquisition hcarry hevaluate
    · exact hevaluate

/-- **All coefficients keep a stable property through a solve**, whether it succeeds or fails. -/
theorem forall_solve (e : Equation) (hr : ∀ c ∈ r.coefficients, P c) :
    ∀ c ∈ (r.solve e).1.coefficients, P c := by
  have hlocked := forall_solveLocked h e (forall_lockAll h e.acquisition hr)
  rw [solve_fst]
  exact forall_releaseAll h e.acquisition.reverse hlocked

end Stable

/-! ## Parts that a solve leaves alone -/

section Frame

variable {α : Type} {p : Coefficient → α}

theorem map_put {c c' : Coefficient} (hc : r.find? k = some c) (hkey : c'.key = c.key) (hp : p c' = p c)
    (j : CoefficientKey) : ((r.put c').find? j).map p = (r.find? j).map p := by
  rw [find?_put_of_find? hc hkey]
  split
  · rename_i hj
    rw [hj, hc, Option.map_some, Option.map_some, hp]
  · rfl

theorem map_modify {f : Coefficient → Coefficient} (hf : ∀ c, (f c).key = c.key) (hp : ∀ c, p (f c) = p c)
    (j : CoefficientKey) : ((r.modify k f).find? j).map p = (r.find? j).map p := by
  rw [find?_modify hf]
  split
  · rw [Option.map_map]
    exact Option.map_congr fun c _ => hp c
  · rfl

variable (h : Coefficient.IsFrame p)
include h

theorem map_hand : ∀ (hs : List (CoefficientKey × Revision)) {r : Registry} (j : CoefficientKey),
    ((r.hand hs).1.find? j).map p = (r.find? j).map p
  | [], _, _ => rfl
  | (k, f) :: hs, r, j => by
    cases hc : r.find? k with
    | none =>
        rw [hand, hc]
        exact map_hand hs j
    | some c =>
        cases ha : c.applyOrDefer f with
        | error reason =>
            rw [hand, hc]
            simp only [ha]
        | ok taken =>
            rw [hand_cons_some hc ha]
            exact (map_hand hs j).trans (map_put hc (Coefficient.applyOrDefer_key ha) (h.applyOrDefer ha) j)

theorem map_store : ∀ (ts : List (CoefficientKey × Tensor)) {r : Registry} (j : CoefficientKey),
    ((r.store ts).find? j).map p = (r.find? j).map p
  | [], _, _ => rfl
  | (_, t) :: ts, _, j => (map_store ts j).trans
      (map_modify (f := fun c => { c with tensor := some t }) (fun _ => rfl) (fun c => h.tensor c t) j)

theorem map_carryOut (hcarry : r.carryOut s ks = .ok r') (j : CoefficientKey) :
    (r'.find? j).map p = (r.find? j).map p := by
  obtain ⟨ts, -, hcarry⟩ := bind_eq_ok hcarry
  obtain ⟨_, -, hcarry⟩ := bind_eq_ok hcarry
  have hhand := (map_hand h ((r.others ks).map fun c => (c.key, s.update)) j).trans (map_store h ts (r := r) j)
  split at hcarry
  · rename_i heq
    rw [heq] at hhand
    cases hcarry
    exact hhand
  · cases hcarry

theorem map_evaluate (e : Equation) (j : CoefficientKey) :
    ((r.evaluate e).1.find? j).map p = (r.find? j).map p := by
  unfold evaluate
  split
  · split
    all_goals
      rename_i heq
      exact (congrArg (fun x => (x.1.find? j).map p) heq).symm.trans (map_hand h _ j)
  · split <;> rfl

/-- **The work under the locks leaves such a part of every coefficient alone.** -/
theorem map_solveLocked (e : Equation) (j : CoefficientKey) :
    ((r.solveLocked e).1.find? j).map p = (r.find? j).map p := by
  have hevaluate := map_evaluate h e j (r := r)
  unfold solveLocked
  split
  · rename_i heq
    rwa [heq] at hevaluate
  · rename_i heq
    rw [heq] at hevaluate
    split
    · rename_i hcarry
      exact (map_carryOut h hcarry j).trans hevaluate
    · exact hevaluate

end Frame

end Registry

end TensorEquations
