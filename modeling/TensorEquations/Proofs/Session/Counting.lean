import TensorEquations.Proofs.Equation.Standing
import TensorEquations.Proofs.Session.Scheduling

/-!
# Submissions counted

Every equation is submitted once, and as soon as its coefficients are finished.

* `Registry.observations` — how often an equation observes a coefficient.
* `Registry.Extends` — no equation observes more or less, and what is finished stays finished.
* `Session.Counts` — every equation observes each of its coefficients once and no other one, is among the
  submissions once if it is scheduled, and waits until the worker takes it.
* `Session.Counts.effect`, `Session.Counts.turn` — **every step keeps this.**
* `Session.Runs.counts` — **so it holds in every state of a run without direct solves.**
* `Session.submitted_exactly_once` — **the submissions, the observers and the states of an equation.**
-/

namespace TensorEquations

/-! ## Observations -/

namespace Registry

/-- How often the equation at a place observes the coefficient of a key. -/
def observations (r : Registry) (place : Nat) (k : CoefficientKey) : Nat :=
  (r.find? k).elim 0 fun c => c.observers.count (.equation place)

/-- No equation observes more or less, and what is finished stays finished. -/
structure Extends (r r' : Registry) : Prop where
  observations : ∀ i k, r'.observations i k = r.observations i k
  finished : ∀ k, r.isFinished k = true → r'.isFinished k = true

variable {r r' r'' : Registry} {k : CoefficientKey} {c c' : Coefficient} {e : Equation}

theorem Extends.isReady (h : r.Extends r') (he : e.isReady r = true) : e.isReady r' = true :=
  List.all_eq_true.mpr fun k hk => h.finished k (List.all_eq_true.mp he k hk)

theorem Retains.extends (h : r.Retains r') : r.Extends r' := by
  refine ⟨fun i k => ?_, fun k hk => (h.isFinished k).trans hk⟩
  have hstanding : ∀ r : Registry, r.observations i k =
      (r.standing? k).elim 0 fun standing => standing.1.count (.equation i) := by
    intro r
    unfold Registry.observations standing?
    cases r.find? k <;> rfl
  rw [hstanding, hstanding, h k]

theorem extends_register (r : Registry) (k : CoefficientKey) : r.Extends (r.register k) := by
  refine ⟨fun i j => ?_, fun j hj => ((keeps_register r k).finished j).trans hj⟩
  exact apply_find?_register (·.elim 0 fun c => c.observers.count (.equation i)) rfl

/-- A listener from outside is no equation. -/
theorem extends_listener (r : Registry) (k : CoefficientKey) (tag : String) :
    r.Extends (r.modify k fun c => c.observe (.listener tag)) := by
  refine ⟨fun i j => ?_, fun j hj => ((keeps_observe r k _).finished j).trans hj⟩
  unfold observations
  rw [find?_modify (Coefficient.observe_key · _)]
  split
  · cases r.find? j with
    | none => rfl
    | some c => simp [Coefficient.observe]
  · rfl

theorem extends_complete {t : Tensor} (hc : r.find? k = some c) (hcomplete : c.complete t = .ok c') :
    r.Extends (r.put c') := by
  obtain ⟨hkey, -, hfinished, -, hobservers⟩ := Coefficient.complete_frame hcomplete
  refine ⟨fun i j => ?_, fun j hj => ?_⟩
  · unfold observations
    rw [find?_put_of_find? hc hkey]
    split
    · rename_i hj
      rw [hj, hc]
      exact congrArg (List.count _) hobservers
    · rfl
  · unfold isFinished at hj ⊢
    rw [find?_put_of_find? hc hkey]
    split
    · exact hfinished
    · exact hj

/-- A new observer of several coefficients. -/
theorem observations_observeAll {ks : List CoefficientKey} (hn : ks.Nodup) (i place : Nat)
    (k : CoefficientKey) : (r.observeAll (.equation place) ks).observations i k =
      r.observations i k + if i = place ∧ k ∈ ks then 1 else 0 := by
  have hcount : ([.equation place] : List Observer).count (.equation i) = if i = place then 1 else 0 := by
    by_cases hi : i = place
    · simp [hi]
    · simp [hi, Ne.symm hi]
  unfold observations
  rw [find?_observeAll hn]
  by_cases hk : k ∈ ks
  · rw [if_pos hk]
    simp only [hk, and_true, Option.elim_some, Coefficient.observe, List.count_append, hcount]
    cases r.find? k <;> rfl
  · simp [hk]

end Registry

/-- A command that completes no coefficient. -/
theorem Command.Changes.extends {r : Registry} {c : Command} {k : CoefficientKey} {d d' : Coefficient}
    (h : c.Changes k d d') (hd : r.find? k = some d) : r.Extends (r.put d') := by
  rcases h.retains_or_observes hd with ⟨-, hretains⟩ | ⟨m, tag, -, -, heq⟩
  · exact hretains.extends
  · rw [heq]
    exact Registry.extends_listener r k tag

/-! ## The invariant -/

namespace Session

variable {s s' t : Session} {place i : Nat} {k : CoefficientKey}

/-- Whether the equation at a place has a coefficient. -/
def involves (s : Session) (place : Nat) (k : CoefficientKey) : Bool :=
  s.equations[place]?.any fun e => e.coefficients.contains k

/-- Whether the equation at a place is scheduled. -/
def schedulesAt (s : Session) (place : Nat) : Bool := s.equations[place]?.any Equation.isScheduled

/-- Every equation observes each of its coefficients once and no other one; the scheduled equations, which are
ready, are submitted once, and no others; and an equation waits until the worker takes it. -/
structure Counts (s : Session) : Prop extends Tracks s where
  parsed : ∀ (i : Nat) (e : Equation), s.equations[i]? = some e → parseEquation e.source = .ok e.reading
  observations : ∀ i k, s.registry.observations i k = (s.involves i k).toNat
  count : ∀ i, s.submissions.count i = (s.schedulesAt i).toNat
  warranted : ∀ (i : Nat) (e : Equation), s.equations[i]? = some e → e.isScheduled = true →
    e.isEmpty = false ∧ e.isReady s.registry = true
  waiting : ∀ (i : Nat) (e : Equation), s.equations[i]? = some e →
    (e.state.isWaiting = true ↔ i ∉ s.submissions.take s.taken)

theorem counts_start (configuration : Configuration) : (Session.start configuration).Counts where
  toTracks := (schedules_start configuration).toTracks
  parsed _ _ he := nomatch he
  observations _ _ := rfl
  count _ := rfl
  warranted _ _ he := nomatch he
  waiting _ _ he := nomatch he

theorem involves_of_getElem? {e : Equation} (he : s.equations[i]? = some e) :
    s.involves i k = e.coefficients.contains k := by
  rw [involves, he]
  rfl

theorem schedulesAt_of_getElem? {e : Equation} (he : s.equations[i]? = some e) :
    s.schedulesAt i = e.isScheduled := by
  rw [schedulesAt, he]
  rfl

theorem involves_congr
    (h : s'.equations[i]?.map Equation.reading = s.equations[i]?.map Equation.reading) :
    s'.involves i k = s.involves i k := by
  have hreading : ∀ s : Session, s.involves i k = (s.equations[i]?.map Equation.reading).any fun reading =>
      (reading.tags.map CoefficientTag.key).eraseDups.contains k := by
    intro s
    rw [Option.any_map]
    rfl
  rw [hreading, hreading, h]

theorem schedulesAt_congr
    (h : s'.equations[i]?.map Equation.isScheduled = s.equations[i]?.map Equation.isScheduled) :
    s'.schedulesAt i = s.schedulesAt i := by
  have hscheduled : ∀ s : Session, s.schedulesAt i = (s.equations[i]?.map Equation.isScheduled).any id := by
    intro s
    rw [Option.any_map]
    rfl
  rw [hscheduled, hscheduled, h]

/-- No equation is scheduled behind the last one. -/
theorem schedulesAt_length (s : Session) : s.schedulesAt s.equations.length = false := by
  rw [schedulesAt, List.getElem?_eq_none (Nat.le_refl _)]
  rfl

namespace Counts

/-- A step that neither submits nor takes an equation. -/
theorem frame (h : s.Counts) (ht : s'.Tracks) (hr : s.registry.Extends s'.registry)
    (hsubmissions : s'.submissions = s.submissions) (htaken : s'.taken = s.taken)
    (hequations : ∀ i : Nat, s'.equations[i]?.map Equation.progress = s.equations[i]?.map Equation.progress) :
    s'.Counts := by
  have hold : ∀ (i : Nat) (e' : Equation), s'.equations[i]? = some e' →
      ∃ e, s.equations[i]? = some e ∧ e.progress = e'.progress := by
    intro i e' he'
    have hi := hequations i
    rw [he', Option.map_some] at hi
    exact Option.map_eq_some_iff.mp hi.symm
  have hpart : ∀ {α : Type} (p : String × ParsedEquation × Bool × Bool → α) (i : Nat),
      s'.equations[i]?.map (fun e => p e.progress) = s.equations[i]?.map fun e => p e.progress := by
    intro α p i
    have hmap := congrArg (Option.map p) (hequations i)
    rwa [Option.map_map, Option.map_map] at hmap
  refine { ht with parsed := ?_, observations := ?_, count := ?_, warranted := ?_, waiting := ?_ }
  · intro i e' he'
    obtain ⟨e, he, hprogress⟩ := hold i e' he'
    simp only [Equation.progress, Prod.mk.injEq] at hprogress
    rw [← hprogress.1, ← hprogress.2.1]
    exact h.parsed i e he
  · intro i k
    rw [hr.observations, h.observations, involves_congr (hpart (·.2.1) i)]
  · intro i
    rw [hsubmissions, h.count, schedulesAt_congr (hpart (·.2.2.1) i)]
  · intro i e' he' hscheduled
    obtain ⟨e, he, hprogress⟩ := hold i e' he'
    simp only [Equation.progress, Prod.mk.injEq] at hprogress
    obtain ⟨hempty, hready⟩ := h.warranted i e he (hprogress.2.2.1.trans hscheduled)
    refine ⟨?_, ?_⟩
    · rwa [Equation.isEmpty, hprogress.2.1] at hempty
    · rw [← Equation.isReady_congr hprogress.2.1]
      exact hr.isReady hready
  · intro i e' he'
    obtain ⟨e, he, hprogress⟩ := hold i e' he'
    simp only [Equation.progress, Prod.mk.injEq] at hprogress
    rw [hsubmissions, htaken, ← hprogress.2.2.2]
    exact h.waiting i e he

/-- A step that changes the registry only. -/
theorem frame_registry (h : s.Counts) {r : Registry} (ht : Tracks { s with registry := r })
    (hr : s.registry.Extends r) : Session.Counts { s with registry := r } :=
  h.frame ht hr rfl rfl fun _ => rfl

/-! ## Steps -/

theorem notify (h : s.Counts) (place : Nat) : (s.notify place).1.Counts := by
  have htracks := h.toTracks.submits (notify_submits s place)
  rcases notify_cases h.isOpen place with heq | ⟨e, he, hempty, hunscheduled, hready, heq⟩
  · rw [heq]
    exact h
  rw [heq] at htracks ⊢
  have htake : (s.submissions ++ [place]).take s.taken = s.submissions.take s.taken :=
    List.take_append_of_le_length h.bound
  have hscheduled : ∀ i, Session.schedulesAt { s with
      equations := s.equations.modify place fun e => { e with isScheduled := true }
      submissions := s.submissions ++ [place] } i = (s.schedulesAt i || decide (i = place)) := by
    intro i
    unfold schedulesAt
    rw [List.getElem?_modify]
    by_cases hi : i = place
    · simp [hi, he]
    · cases hd : s.equations[i]? <;> simp [hi, Ne.symm hi]
  refine { htracks with parsed := ?_, observations := ?_, count := ?_, warranted := ?_, waiting := ?_ }
  · intro i d' hd'
    obtain ⟨d, hd, hsubmitted, -⟩ := modify_submitted hd'
    rw [hsubmitted.source, hsubmitted.reading]
    exact h.parsed i d hd
  · intro i k
    rw [h.observations]
    have hinvolves := map_getElem?_modify (p := Equation.reading) (f := fun e => { e with isScheduled := true })
      (fun _ => rfl) s.equations place i
    exact congrArg Bool.toNat (involves_congr hinvolves).symm
  · intro i
    rw [hscheduled]
    show (s.submissions ++ [place]).count i = _
    rw [List.count_append, h.count]
    by_cases hi : i = place
    · have hno : s.schedulesAt i = false := by rw [hi, schedulesAt_of_getElem? he, hunscheduled]
      simp [hi ▸ hno, hi]
    · simp [hi, Ne.symm hi]
  · intro i d' hd' hs
    obtain ⟨d, hd, hsubmitted, hnew⟩ := modify_submitted hd'
    have hreading := hsubmitted.reading
    rw [Equation.isEmpty, Equation.isReady_congr hreading, hreading]
    rcases hnew hs with hold | rfl
    · exact h.warranted i d hd hold
    · obtain rfl := Option.some.inj (he.symm.trans hd)
      exact ⟨hempty, hready⟩
  · intro i d' hd'
    obtain ⟨d, hd, hsubmitted, -⟩ := modify_submitted hd'
    show d'.state.isWaiting = true ↔ i ∉ (s.submissions ++ [place]).take s.taken
    rw [htake, hsubmitted.state]
    exact h.waiting i d hd

theorem announce : ∀ (os : List Observer) {s : Session} (k : CoefficientKey), s.Counts →
    (s.announce k os).1.Counts
  | [], _, _, h => h
  | .listener tag :: os, s, k, h => by
    have htold : Tracks { s with events := s.events ++ [.coefficientFinished tag k] } :=
      ⟨h.isOpen, h.observed, h.scheduled, h.bound, h.taken, h.submitted⟩
    exact announce os k (h.frame htold (Registry.retains_refl _).extends rfl rfl fun _ => rfl)
  | .equation place :: os, s, k, h => by
    have hnotify := h.notify place
    rw [Session.announce]
    split
    · rename_i heq
      rw [heq] at hnotify
      exact announce os k hnotify
    · rename_i heq
      rwa [heq] at hnotify

/-- A coefficient is completed, and its observers are told. -/
theorem complete (h : s.Counts) {k : CoefficientKey} {c c' : Coefficient} {t : Tensor}
    (hc : s.registry.find? k = some c) (hcomplete : c.complete t = .ok c') :
    ({ s with registry := s.registry.put c' }.announce k c'.observers).1.Counts :=
  announce _ k (h.frame_registry (h.toTracks.complete hc hcomplete) (Registry.extends_complete hc hcomplete))

/-- An equation is added and told. -/
theorem append (h : s.Counts) {e : Equation} (hparsed : parseEquation e.source = .ok e.reading)
    (hstate : e.state = .waiting) (hunscheduled : e.isScheduled = false) :
    ({ s with
      registry := s.registry.observeAll (.equation s.equations.length) e.coefficients
      equations := s.equations ++ [e] }.notify s.equations.length).1.Counts := by
  have hkeeps := Registry.keeps_observeAll (.equation s.equations.length) e.coefficients s.registry
  have hfresh : s.equations.length ∉ s.submissions := by
    rw [← List.count_eq_zero, h.count, schedulesAt_length]
    rfl
  refine notify ?_ _
  refine { h.toTracks.append hunscheduled with
    parsed := ?_, observations := ?_, count := ?_, warranted := ?_, waiting := ?_ }
  · intro i d hd
    rcases getElem?_append_cases hd with hold | ⟨-, rfl⟩
    · exact h.parsed i d hold
    · exact hparsed
  · intro i k
    rw [Registry.observations_observeAll e.nodup_coefficients, h.observations]
    unfold involves
    rcases Nat.lt_trichotomy i s.equations.length with hi | rfl | hi
    · rw [List.getElem?_append_left hi, if_neg fun hno => Nat.ne_of_lt hi hno.1]
      rfl
    · rw [List.getElem?_concat_length, List.getElem?_eq_none (Nat.le_refl _)]
      by_cases hk : k ∈ e.coefficients <;> simp [hk]
    · rw [List.getElem?_eq_none (Nat.le_of_lt hi), List.getElem?_eq_none (by simp; omega),
        if_neg fun hno => Nat.ne_of_gt hi hno.1]
      rfl
  · intro i
    show s.submissions.count i = _
    rw [h.count]
    unfold schedulesAt
    rcases Nat.lt_trichotomy i s.equations.length with hi | rfl | hi
    · rw [List.getElem?_append_left hi]
    · rw [List.getElem?_concat_length, List.getElem?_eq_none (Nat.le_refl _)]
      exact (congrArg Bool.toNat hunscheduled).symm
    · rw [List.getElem?_eq_none (Nat.le_of_lt hi), List.getElem?_eq_none (by simp; omega)]
  · intro i d hd hs
    rcases getElem?_append_cases hd with hold | ⟨-, rfl⟩
    · obtain ⟨hempty, hready⟩ := h.warranted i d hold hs
      exact ⟨hempty, hkeeps.isReady.trans hready⟩
    · rw [hunscheduled] at hs
      cases hs
  · intro i d hd
    rcases getElem?_append_cases hd with hold | ⟨rfl, rfl⟩
    · exact h.waiting i d hold
    · rw [hstate]
      exact ⟨fun _ hmem => hfresh (List.mem_of_mem_take hmem), fun _ => rfl⟩

/-- The equation that the worker takes next has not been taken before. -/
theorem not_mem_take (h : s.Counts) {rest : List Nat} (hpending : s.pending = place :: rest) :
    place ∉ s.submissions.take s.taken := by
  have hsplit : s.submissions = s.submissions.take s.taken ++ place :: rest := by
    rw [← hpending]
    exact (List.take_append_drop s.taken s.submissions).symm
  have hcount := congrArg (List.count place) hsplit
  rw [h.count, List.count_append, List.count_cons_self] at hcount
  have hle := (s.schedulesAt place).toNat_le
  rw [← List.count_eq_zero]
  omega

/-- A turn of the worker solves an equation that waits. -/
theorem exists_turn (h : s.Counts) {rest : List Nat} (hpending : s.pending = place :: rest) :
    ∃ e state events, s.equations[place]? = some e ∧ EquationState.isWaiting state = false ∧
      s.turn place = { s with
        registry := (s.registry.solve e).1
        equations := s.equations.set place { e with state := state }
        events := events
        taken := s.taken + 1 } := by
  have hsubmitted : place ∈ s.submissions := by
    refine List.mem_of_mem_drop (i := s.taken) ?_
    rw [show s.submissions.drop s.taken = place :: rest from hpending]
    exact List.mem_cons_self
  obtain ⟨e, he, -⟩ := h.submitted place hsubmitted
  have hwaiting := (h.waiting place e he).mpr (h.not_mem_take hpending)
  unfold Session.turn
  rcases solve_settles s place with ⟨-, hno⟩ | ⟨d, state, hd, -, hterminal, heq⟩
  · exact absurd hwaiting (Bool.eq_false_iff.mp (hno e he))
  · exact ⟨d, state, _, hd, EquationState.isWaiting_of_isTerminal hterminal, by rw [heq]⟩

/-- **One turn of the worker.** -/
theorem turn (h : s.Counts) {rest : List Nat} (hpending : s.pending = place :: rest)
    (ht : (s.turn place).Tracks) : (s.turn place).Counts := by
  obtain ⟨e, state, events, he, hstate, heq⟩ := h.exists_turn hpending
  rw [heq] at ht ⊢
  have hretains := Registry.retains_solve s.registry e
  refine { ht with parsed := ?_, observations := ?_, count := ?_, warranted := ?_, waiting := ?_ }
  · intro i d hd
    rcases getElem?_set_cases hd with ⟨rfl, rfl⟩ | ⟨-, hold⟩
    · exact h.parsed i e he
    · exact h.parsed i d hold
  · intro i k
    rw [hretains.extends.observations, h.observations]
    exact congrArg Bool.toNat (involves_congr (map_getElem?_set (d := { e with state := state }) he rfl i)).symm
  · intro i
    show s.submissions.count i = _
    rw [h.count]
    exact congrArg Bool.toNat (schedulesAt_congr (map_getElem?_set (d := { e with state := state }) he rfl i)).symm
  · intro i d hd hs
    obtain ⟨hempty, hready⟩ : d.isEmpty = false ∧ d.isReady s.registry = true := by
      rcases getElem?_set_cases hd with ⟨rfl, rfl⟩ | ⟨-, hold⟩
      · exact h.warranted i e he hs
      · exact h.warranted i d hold hs
    exact ⟨hempty, hretains.extends.isReady hready⟩
  · intro i d hd
    show d.state.isWaiting = true ↔ i ∉ s.submissions.take (s.taken + 1)
    rw [take_of_pending hpending, List.mem_append, List.mem_singleton]
    rcases getElem?_set_cases hd with ⟨rfl, rfl⟩ | ⟨hne, hold⟩
    · simp [hstate]
    · rw [h.waiting i d hold]
      simp [hne]

end Counts

/-! ## Commands -/

variable {cs : List Command} {c : Command}

/-- **A command**, for a state of which it is known already that the submissions are tracked. -/
theorem Counts.effect (h : s.Counts) (ht : s'.Tracks) (heffect : s.Effect c s') (hc : c.isIndirect = true) :
    s'.Counts := by
  cases heffect with
  | nothing => exact h
  | adds reading state _ unscheduled => exact h.append reading state unscheduled
  | completes _ found _ completed => exact h.complete found completed
  | changes changed found => exact h.frame_registry ht (changed.extends found)
  | amends amended =>
      exact h.frame ht (Registry.retains_refl _).extends rfl rfl fun i =>
        map_getElem?_modify amended.progress s.equations _ i
  | notifies place => exact h.notify place
  | solves | closes => cases hc

/-- **In all states of a run without direct solves the submissions are counted.** -/
theorem Runs.counts {configuration : Configuration} (h : Runs (Session.start configuration) cs t)
    (hindirect : ∀ c ∈ cs, c.isIndirect = true) : t.Schedules ∧ t.Counts :=
  h.preserves (P := fun t => t.Schedules ∧ t.Counts) ⟨schedules_start configuration, counts_start configuration⟩
    (fun t k ht =>
      have hschedules := ht.1.keeps_registry (Registry.keeps_register t.registry k)
      ⟨hschedules, ht.2.frame_registry hschedules.toTracks (Registry.extends_register t.registry k)⟩)
    (fun _ _ _ hc heffect ht =>
      have hschedules := ht.1.effect heffect hc
      ⟨hschedules, ht.2.effect hschedules.toTracks heffect hc⟩)
    (fun _ _ _ hpending _ ht =>
      have hschedules := ht.1.turn hpending
      ⟨hschedules, ht.2.turn hpending hschedules.toTracks⟩)
    hindirect

/-! ## Scheduling -/

/-- The worker can take no turn: nothing is left to take, or the next equation is held up. -/
def isIdle (s : Session) : Bool := s.pending.head?.all s.isHeldUp

/-- **Each equation is scheduled exactly once, at the right moment.** In every state of a run without direct
solves, an equation is among the submissions once if it is not empty and all its coefficients are finished,
and never otherwise. It observes each coefficient that its source mentions once, however often it is mentioned,
and no other one. It waits until the worker takes it; so when the worker is idle and nothing that it has to take
is held up, the equation waits exactly if it has not been submitted. -/
theorem submitted_exactly_once {configuration : Configuration} {e : Equation} {place : Nat}
    (hrun : Runs (start configuration) cs t) (hindirect : ∀ c ∈ cs, c.isIndirect = true)
    (he : t.equations[place]? = some e) :
    t.submissions.count place = (!e.isEmpty && e.isReady t.registry).toNat ∧
    parseEquation e.source = .ok e.reading ∧
    (∀ tag ∈ e.reading.tags, ∃ c ∈ t.registry.coefficients, c.key = tag.key) ∧
    (∀ c ∈ t.registry.coefficients, c.observers.count (.equation place) =
      if ∃ tag ∈ e.reading.tags, tag.key = c.key then 1 else 0) ∧
    (e.state.isWaiting = true ↔ place ∉ t.submissions.take t.taken) ∧
    (t.isIdle = true → (∀ i ∈ t.pending, t.isHeldUp i = false) →
      (e.state.isWaiting = true ↔ place ∉ t.submissions)) := by
  obtain ⟨hs, hc⟩ := hrun.counts hindirect
  have hmentioned : ∀ k, k ∈ e.coefficients ↔ ∃ tag ∈ e.reading.tags, tag.key = k := by
    intro k
    rw [Equation.coefficients, List.mem_eraseDups, List.mem_map]
  refine ⟨?_, hc.parsed place e he, ?_, ?_, hc.waiting place e he, ?_⟩
  · rw [hc.count, schedulesAt_of_getElem? he]
    congr 1
    rw [Bool.eq_iff_iff, Bool.and_eq_true, Bool.not_eq_true']
    exact ⟨hc.warranted place e he, fun h => hs.ready e (List.mem_of_getElem? he) h.1 h.2⟩
  · intro tag htag
    obtain ⟨c, hfind, -⟩ := hc.observed place e he tag.key ((hmentioned _).mpr ⟨tag, htag, rfl⟩)
    exact ⟨c, Registry.mem_of_find? hfind, Registry.key_of_find? hfind⟩
  · intro c hmem
    have hobserved := hc.observations place c.key
    rw [Registry.observations, Registry.find?_key hmem, involves_of_getElem? he] at hobserved
    by_cases hk : c.key ∈ e.coefficients
    · rw [if_pos ((hmentioned _).mp hk)]
      simpa [hk] using hobserved
    · rw [if_neg (mt (hmentioned _).mpr hk)]
      simpa [hk] using hobserved
  · intro hidle hfree
    have hdone : t.pending = [] := by
      cases hp : t.pending with
      | nil => rfl
      | cons i rest =>
          rw [isIdle, hp] at hidle
          rw [hp] at hfree
          cases (hfree i List.mem_cons_self).symm.trans hidle
    have hall : t.submissions.take t.taken = t.submissions :=
      List.take_of_length_le (List.drop_eq_nil_iff.mp hdone)
    rw [hc.waiting place e he, hall]

/-- An equation that mentions a coefficient twice, and is told of it before and after it is finished. -/
def toldTwice : List Command :=
  [.addEquation "#<a:0:0:0:0:\x7b\x7d>+#<a:0:0:0:0:\x7b\x7d>-3", .notify 0,
    .completeGeneral ⟨⟨0, 0, 0, 0⟩, "a"⟩ "x", .notify 0]

theorem submitted_exactly_once_told_twice : ∃ t e, Runs (start .planar) toldTwice t ∧
    t.equations[0]? = some e ∧ t.submissions.count 0 = 1 ∧
    (∀ c ∈ t.registry.coefficients, c.observers.count (.equation 0) =
      if ∃ tag ∈ e.reading.tags, tag.key = c.key then 1 else 0) ∧
    e.state.isWaiting = false := by
  obtain ⟨s, hs⟩ : ∃ s, s = toldTwice.foldl issue (start .planar) := ⟨_, rfl⟩
  have hpending : s.pending = [0] ∧ s.isHeldUp 0 = false := by
    rw [hs]
    decide +kernel
  have hrun : Runs (start .planar) toldTwice (s.turn 0) :=
    (hs ▸ Runs.start.issueAll toldTwice : Runs (start .planar) toldTwice s).turn hpending.1 hpending.2
  have hsolved : (s.turn 0).pending = [] ∧
      ((s.turn 0).equations[0]?.any fun e => !e.isEmpty && e.isReady (s.turn 0).registry) = true := by
    rw [hs]
    decide +kernel
  obtain ⟨e, he, hready⟩ := (Option.any_eq_true _ _).mp hsolved.2
  obtain ⟨hcount, -, -, hobservers, -, hidle⟩ := submitted_exactly_once hrun (by decide +kernel) he
  rw [hready] at hcount
  have hwaiting := hidle (by rw [isIdle, hsolved.1]; rfl) (by rw [hsolved.1]; exact List.forall_mem_nil _)
  refine ⟨s.turn 0, e, hrun, he, hcount, hobservers, Bool.eq_false_iff.mpr fun hw => hwaiting.mp hw ?_⟩
  exact List.count_pos_iff.mp (hcount.symm ▸ Nat.one_pos)

end Session

end TensorEquations
