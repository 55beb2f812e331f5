import TensorEquations.Proofs.Session.Atomicity

/-!
# Locks

A solve gives back all the locks that it takes, whichever way it ends, so a coefficient is held by whoever has asked
for its lock.

* `Registry.isLocked_releaseAll`, `Registry.isLocked_solve` — **a solve that waits for no lock leaves every lock as
  it is.**
* `Session.HeldBy` — the lock of a coefficient has been asked for and not been released since.
* `Session.Effect.isLocked`, `Session.isLocked_issue` — what one command does to the locks.
* `Session.Runs.isLocked_iff` — **a coefficient is locked if and only if it is held by the caller.**
* `Session.coefficients_stay_regular` — **the state of every coefficient in every state of a run.**
-/

namespace TensorEquations

theorem Coefficient.unlock_isLocked (c : Coefficient) : c.unlock.1.isLocked = false := by
  unfold unlock release
  split
  · split <;> rfl
  · rename_i hl
    exact Bool.eq_false_iff.mpr hl

theorem Coefficient.isFrame_isLocked : IsFrame Coefficient.isLocked := ⟨fun _ _ => rfl, fun _ _ => rfl⟩

theorem Command.Changes.isLocked {c : Command} {k : CoefficientKey} {d d' : Coefficient} (h : c.Changes k d d')
    (hlock : ∀ m, c ≠ .lock m) (hunlock : ∀ m, c ≠ .unlock m) : d'.isLocked = d.isLocked := by
  cases h with
  | lock m => exact absurd rfl (hlock m)
  | unlock m => exact absurd rfl (hunlock m)
  | setTensor stored =>
      unfold Coefficient.setTensor at stored
      split at stored
      · cases stored
        rfl
      · cases stored
  | applyOrDefer taken => exact (Coefficient.applyOrDefer_frame taken).1
  | observe => rfl

namespace Registry

variable {r r' : Registry} {j k : CoefficientKey} {c c' : Coefficient} {e : Equation}

/-! ## The locks of a registry -/

theorem isLocked_congr (h : (r'.find? k).map Coefficient.isLocked = (r.find? k).map Coefficient.isLocked) :
    r'.isLocked k = r.isLocked k := by
  have hany : ∀ r : Registry, r.isLocked k = ((r.find? k).map Coefficient.isLocked).getD false := by
    intro r
    unfold isLocked
    cases r.find? k <;> rfl
  rw [hany, hany, h]

theorem isLocked_put (hc : r.find? k = some c) (hkey : c'.key = c.key) :
    (r.put c').isLocked j = if j = k then c'.isLocked else r.isLocked j := by
  unfold isLocked
  rw [find?_put_of_find? hc hkey]
  split <;> rfl

theorem isLocked_register : (r.register k).isLocked j = r.isLocked j :=
  apply_find?_register (·.any Coefficient.isLocked) rfl

theorem isLocked_observeAll (o : Observer) : ∀ (ks : List CoefficientKey) {r : Registry},
    (r.observeAll o ks).isLocked j = r.isLocked j
  | [], _ => rfl
  | k :: ks, r => by
    show (((r.register k).modify k fun c => c.observe o).observeAll o ks).isLocked j = _
    rw [isLocked_observeAll o ks,
      isLocked_congr (map_modify (Coefficient.observe_key · o) (fun _ => rfl) j), isLocked_register]

theorem isLocked_lockAll {ks : List CoefficientKey} (hk : k ∉ ks) : (r.lockAll ks).isLocked k = r.isLocked k := by
  unfold isLocked
  rw [find?_lockAll, if_neg hk]

theorem isLocked_releaseAll : ∀ (ks : List CoefficientKey) {r : Registry},
    (r.releaseAll ks).1.isLocked k = if k ∈ ks then false else r.isLocked k
  | [], _ => rfl
  | j :: ks, r => by
    rw [releaseAll]
    cases hc : r.find? j with
    | none =>
        have hj : r.isLocked j = false := by
          unfold isLocked
          rw [hc]
          rfl
        simp only [isLocked_releaseAll ks, List.mem_cons]
        by_cases hk : k = j
        · simp [hk, hj]
        · simp [hk]
    | some c =>
        simp only [isLocked_releaseAll ks, List.mem_cons, isLocked_put hc c.unlock_key, c.unlock_isLocked]
        by_cases hk : k = j <;> simp [hk]

/-- **A solve that waits for no lock leaves every lock as it is**, whether it succeeds or fails. -/
theorem isLocked_solve (hfree : e.isBlocked r = false) (k : CoefficientKey) :
    (r.solve e).1.isLocked k = r.isLocked k := by
  rw [solve_fst, isLocked_releaseAll]
  by_cases hk : k ∈ e.acquisition
  · have hfree : r.isLocked k = false :=
      Bool.eq_false_iff.mpr (List.any_eq_false.mp hfree k (Equation.mem_acquisition.mp hk))
    rw [if_pos (List.mem_reverse.mpr hk), hfree]
  · rw [if_neg (mt List.mem_reverse.mp hk),
      isLocked_congr (map_solveLocked Coefficient.isFrame_isLocked e k), isLocked_lockAll hk]

end Registry

namespace Session

variable {s s' t : Session} {cs : List Command} {k : CoefficientKey} {m : Mention} {c : Command}

/-! ## The locks that a caller holds -/

/-- The lock of a coefficient has been asked for, and its release has not been asked for since. -/
def HeldBy (cs : List Command) (k : CoefficientKey) : Prop :=
  ∃ before m after, cs = before ++ .lock m :: after ∧ m.key = k ∧ ∀ n, .unlock n ∈ after → n.key ≠ k

theorem heldBy_lock (cs : List Command) (m : Mention) : HeldBy (cs ++ [.lock m]) m.key :=
  ⟨cs, m, [], rfl, rfl, fun _ hn => absurd hn List.not_mem_nil⟩

/-- One more command after others. -/
theorem heldBy_concat : HeldBy (cs ++ [c]) k ↔
    (∃ m, c = .lock m ∧ m.key = k) ∨ (HeldBy cs k ∧ ∀ n, c = .unlock n → n.key ≠ k) := by
  constructor
  · rintro ⟨before, m, after, heq, hm, hafter⟩
    rcases List.eq_nil_or_concat after with rfl | ⟨after', d, rfl⟩
    · obtain ⟨-, hc⟩ := List.append_inj' heq rfl
      exact .inl ⟨m, (List.cons.inj hc).1, hm⟩
    · rw [List.concat_eq_append, ← List.cons_append, ← List.append_assoc] at heq
      obtain ⟨rfl, hd⟩ := List.append_inj' heq rfl
      obtain rfl := (List.cons.inj hd).1
      refine .inr ⟨⟨before, m, after', rfl, hm, fun n hn => hafter n ?_⟩, fun n hn => hafter n ?_⟩
      · simp [hn]
      · simp [hn]
  · rintro (⟨m, rfl, rfl⟩ | ⟨⟨before, m, after, rfl, hm, hafter⟩, hc⟩)
    · exact heldBy_lock cs m
    · refine ⟨before, m, after ++ [c], by simp, hm, fun n hn => ?_⟩
      rcases List.mem_append.mp hn with hn | hn
      · exact hafter n hn
      · exact hc n (List.mem_singleton.mp hn).symm

/-! ## What a command does to the locks -/

theorem isLocked_lookupAll (s : Session) (ms : List Mention) :
    (s.lookupAll ms).registry.isLocked k = s.registry.isLocked k :=
  lookupAll_induction (P := fun t => t.registry.isLocked k = s.registry.isLocked k)
    (fun _ _ h => Registry.isLocked_register.trans h) rfl ms

theorem isLocked_solve {place : Nat} (hfree : s.isHeldUp place = false) :
    (s.solve place).1.registry.isLocked k = s.registry.isLocked k := by
  rcases solve_settles s place with ⟨heq, -⟩ | ⟨e, _, he, -, -, heq⟩ <;> rw [heq]
  exact Registry.isLocked_solve (isBlocked_of_isHeldUp hfree he) k

theorem isLocked_lock {d : Coefficient} (hd : s.registry.find? m.key = some d) :
    (s.lock m.key).1.registry.isLocked k = true ↔ m.key = k ∨ s.registry.isLocked k = true := by
  unfold lock
  split
  · rename_i hheld
    exact ⟨.inr, fun h => h.elim (fun h => h ▸ hheld) id⟩
  · simp only [modifyCoefficient, ← Registry.put_eq_modify Coefficient.lock_key hd,
      Registry.isLocked_put hd d.lock_key]
    by_cases hk : k = m.key
    · simp [hk, Coefficient.lock]
    · simp [hk, Ne.symm hk]

theorem isLocked_unlock (s : Session) (m : Mention) :
    (s.unlock m.key).1.registry.isLocked k = true ↔ s.registry.isLocked k = true ∧ m.key ≠ k := by
  unfold unlock
  split
  · rename_i hnone
    refine ⟨fun h => ⟨h, ?_⟩, And.left⟩
    rintro rfl
    rw [Registry.isLocked, hnone] at h
    cases h
  · rename_i d hd
    simp only [Registry.isLocked_put hd d.unlock_key, d.unlock_isLocked]
    by_cases hk : k = m.key
    · simp [hk]
    · simp [hk, Ne.symm hk]

/-- A command that neither asks for a lock nor for its release. -/
theorem Effect.isLocked (heffect : s.Effect c s') (hlock : ∀ m, c ≠ .lock m) (hunlock : ∀ m, c ≠ .unlock m) :
    s'.registry.isLocked k = s.registry.isLocked k := by
  cases heffect with
  | nothing | amends | closes => rfl
  | @adds e =>
      rw [(notify_submits _ _).registry]
      exact Registry.isLocked_observeAll _ e.coefficients
  | completes _ found _ completed =>
      obtain ⟨hkey, -, -, hl, -⟩ := Coefficient.complete_frame completed
      rw [(announce_submits _ _ _).registry]
      exact Registry.isLocked_congr (Registry.map_put found hkey hl k)
  | changes changed found =>
      exact Registry.isLocked_congr (Registry.map_put found changed.key (changed.isLocked hlock hunlock) k)
  | notifies place => rw [(notify_submits s place).registry]
  | solves free => exact isLocked_solve free

/-- **What a command does to the locks**, whether it fails or not. -/
theorem isLocked_issue (s : Session) (c : Command) (k : CoefficientKey) :
    (s.issue c).registry.isLocked k = true ↔
      (∃ m, c = .lock m ∧ m.key = k) ∨ (s.registry.isLocked k = true ∧ ∀ n, c = .unlock n → n.key ≠ k) := by
  have hlookup := isLocked_lookupAll (k := k) s c.mentions
  by_cases hlock : ∃ m, c = .lock m
  · obtain ⟨m, rfl⟩ := hlock
    obtain ⟨d, hd⟩ : ∃ d, (s.lookup m.key).registry.find? m.key = some d :=
      Registry.exists_find?_register s.registry m.key
    show ((s.lookup m.key).execute (.lock m)).1.registry.isLocked k = true ↔ _
    rw [execute, outcome_fst, isLocked_lock hd, show (s.lookup m.key).registry.isLocked k = _ from hlookup]
    simp
  by_cases hunlock : ∃ m, c = .unlock m
  · obtain ⟨m, rfl⟩ := hunlock
    show ((s.lookup m.key).execute (.unlock m)).1.registry.isLocked k = true ↔ _
    rw [execute, outcome_fst, isLocked_unlock, show (s.lookup m.key).registry.isLocked k = _ from hlookup]
    simp
  · rw [(issue_effect s c).isLocked (not_exists.mp hlock) (not_exists.mp hunlock), hlookup]
    constructor
    · exact fun h => .inr ⟨h, fun n hn => absurd ⟨n, hn⟩ hunlock⟩
    · rintro (⟨m, hm, -⟩ | ⟨h, -⟩)
      · exact absurd ⟨m, hm⟩ hlock
      · exact h

/-- **A coefficient is locked if and only if it is held by the caller.** -/
theorem Runs.isLocked_iff {configuration : Configuration} (hrun : Runs (Session.start configuration) cs t)
    (k : CoefficientKey) : t.registry.isLocked k = true ↔ HeldBy cs k := by
  induction hrun with
  | start =>
      refine ⟨fun h => (nomatch h), fun ⟨before, m, after, heq, _⟩ => ?_⟩
      simp at heq
  | command h c ih => rw [isLocked_issue, heldBy_concat, ih]
  | turn h hp hfree ih =>
      rw [← ih]
      exact iff_of_eq (congrArg (· = true) (isLocked_solve hfree))

/-! ## The state of a coefficient -/

/-- **Coefficient state and locks stay consistent.** In every state of a run in which the caller replaces no tensor
by hand, and whatever fails on the way: a coefficient is locked if and only if the caller has locked it and not
unlocked it since; a free coefficient has an empty queue; a coefficient with a queue is finished; an open one has no
tensor; and a finished one has a tensor, which carries the labels of the coefficient in order unless the caller has
handed a revision to it that exchanges labels, which no substitution does. -/
theorem coefficients_stay_regular {configuration : Configuration} {d : Coefficient}
    (hrun : Runs (start configuration) cs t) (hset : ∀ m v, .setTensor m v ∉ cs)
    (hd : d ∈ t.registry.coefficients) :
    (d.isLocked = true ↔ HeldBy cs d.key) ∧ (d.isLocked = false → d.queue = []) ∧
      (d.queue ≠ [] → d.isFinished = true) ∧ (d.isFinished = false → d.tensor = none) ∧
      (d.isFinished = true → ∃ v, d.tensor = some v ∧
        ((∀ m f, .applyOrDefer m f ∈ cs → m.key = d.key → f.KeepsLabels) → v.labels = d.labels)) := by
  have hregular : d.IsRegular := by
    refine Runs.forall Coefficient.invariant_isRegular hrun (fun c hc => ?_) d hd
    cases c with
    | setTensor m v => exact absurd hc (hset m v)
    | _ => trivial
  have hlocked := hrun.isLocked_iff d.key
  rw [Registry.isLocked_of_find? (Registry.find?_key hd)] at hlocked
  refine ⟨hlocked, hregular.queue, hregular.waiting, hregular.unfinished, fun hf => ?_⟩
  obtain ⟨v, hv⟩ := hregular.tensor hf
  refine ⟨v, hv, fun hlabels => ?_⟩
  have hlabelled : d.IsLabelled := by
    refine Runs.forall (Coefficient.invariant_isLabelled d.key) hrun (fun c hc => ?_) d hd rfl
    cases c with
    | setTensor m v => exact absurd hc (hset m v)
    | applyOrDefer m f => exact hlabels m f hc
    | _ => trivial
  exact hlabelled.tensor v hv

/-- A scalar coefficient is completed, locked, completed once more in vain, and revised by a revision that fails. -/
theorem coefficients_stay_regular_held : ∃ cs t, ∃ d : Coefficient, Runs (start .planar) cs t ∧
    d ∈ t.registry.coefficients ∧ d.isLocked = true ∧ d.queue ≠ [] ∧ HeldBy cs d.key ∧
    ∃ v, d.tensor = some v ∧ v.labels = d.labels := by
  obtain ⟨m, hm⟩ : ∃ m : Mention, m = ⟨⟨0, 0, 0, 0⟩, "a"⟩ := ⟨_, rfl⟩
  obtain ⟨cs, hcs⟩ : ∃ cs : List Command, cs = [.completeGeneral m "", .lock m, .completeGeneral m "",
    .applyOrDefer m fun _ => .error "no value"] := ⟨_, rfl⟩
  obtain ⟨t, ht⟩ : ∃ t, t = cs.foldl issue (start .planar) := ⟨_, rfl⟩
  have hrun : Runs (start .planar) cs t := ht ▸ Runs.start.issueAll cs
  have hfound : (t.registry.find? m.key).any
      (fun d => d.isLocked && !d.queue.isEmpty && d.isFinished) = true := by
    rw [ht, hcs, hm]
    decide +kernel
  obtain ⟨d, hd, h⟩ := (Option.any_eq_true _ _).mp hfound
  simp only [Bool.and_eq_true, Bool.not_eq_true', List.isEmpty_eq_false_iff] at h
  have hset : ∀ m v, .setTensor m v ∉ cs := by simp [hcs]
  have hlabels : ∀ n f, .applyOrDefer n f ∈ cs → n.key = d.key → f.KeepsLabels := by
    intro n f hf _
    simp only [hcs, List.mem_cons, reduceCtorEq, Command.applyOrDefer.injEq, List.not_mem_nil, or_false,
      false_or] at hf
    rw [hf.2]
    exact fun _ _ hvalue => (nomatch hvalue)
  have hmem := Registry.mem_of_find? hd
  obtain ⟨hheld, -, -, -, hfinished⟩ := coefficients_stay_regular hrun hset hmem
  obtain ⟨v, hv, hlabelled⟩ := hfinished h.2
  exact ⟨cs, t, d, hrun, hmem, h.1.1, h.1.2, hheld.mp h.1.1, v, hv, hlabelled hlabels⟩

end Session

end TensorEquations
