import TensorEquations.Proofs.Session.Effect

/-!
# Scheduling

* `Registry.Keeps` — no observer is lost, and no other coefficients are finished.
* `Session.Schedules` — in an open session every equation observes its coefficients, every ready equation is
  among the submissions and no other one, and what the worker has taken waits no longer.
* `Command.isIndirect` — the commands that neither solve an equation past the worker nor end the session.
* `Session.Schedules.effect`, `Session.Schedules.turn` — **every step keeps this.**
* `Session.Schedules.isWaiting_of_done` — **when the worker is done no ready equation waits.**
-/

namespace TensorEquations

/-- No observer is lost, and the same coefficients are finished. -/
structure Registry.Keeps (r r' : Registry) : Prop where
  observers : ∀ k c, r.find? k = some c → ∃ c', r'.find? k = some c' ∧ c.observers ⊆ c'.observers
  finished : ∀ k, r'.isFinished k = r.isFinished k

namespace Registry

variable {r r' r'' : Registry} {e : Equation}

theorem Keeps.isReady (h : r.Keeps r') : e.isReady r' = e.isReady r := by
  unfold Equation.isReady
  rw [funext h.finished]

theorem Keeps.trans (h : r.Keeps r') (h' : r'.Keeps r'') : r.Keeps r'' := by
  refine ⟨fun k c hc => ?_, fun k => (h'.finished k).trans (h.finished k)⟩
  obtain ⟨c', hc', hsub⟩ := h.observers k c hc
  obtain ⟨c'', hc'', hsub'⟩ := h'.observers k c' hc'
  exact ⟨c'', hc'', List.Subset.trans hsub hsub'⟩

theorem keeps_refl (r : Registry) : r.Keeps r := ⟨fun _ c hc => ⟨c, hc, List.Subset.refl _⟩, fun _ => rfl⟩

theorem keeps_register (r : Registry) (k : CoefficientKey) : r.Keeps (r.register k) := by
  refine ⟨fun j c hc => ⟨c, ?_, List.Subset.refl _⟩,
    fun j => apply_find?_register (·.any Coefficient.isFinished) rfl⟩
  rw [find?_register, hc]
  rfl

theorem keeps_observe (r : Registry) (k : CoefficientKey) (o : Observer) :
    r.Keeps (r.modify k fun c => c.observe o) := by
  refine ⟨fun j c hc => ?_, fun j => ?_⟩
  · rw [find?_modify (Coefficient.observe_key · o), hc]
    split
    · exact ⟨_, rfl, List.subset_append_left _ _⟩
    · exact ⟨c, rfl, List.Subset.refl _⟩
  · unfold isFinished
    rw [find?_modify (Coefficient.observe_key · o)]
    split
    · cases r.find? j <;> rfl
    · rfl

theorem keeps_observeAll (o : Observer) : ∀ (ks : List CoefficientKey) (r : Registry), r.Keeps (r.observeAll o ks)
  | [], r => keeps_refl r
  | k :: ks, r => ((keeps_register r k).trans (keeps_observe _ k o)).trans (keeps_observeAll o ks _)

theorem Retains.keeps (h : r.Retains r') : r.Keeps r' := by
  refine ⟨fun k c hc => ?_, h.isFinished⟩
  obtain ⟨c', hc', hstanding⟩ := h.find? hc
  have hobservers : c'.observers = c.observers := congrArg Prod.fst hstanding
  exact ⟨c', hc', hobservers ▸ List.Subset.refl _⟩

end Registry

/-- A command that completes no coefficient. -/
theorem Command.Changes.keeps {r : Registry} {c : Command} {k : CoefficientKey} {d d' : Coefficient}
    (h : c.Changes k d d') (hd : r.find? k = some d) : r.Keeps (r.put d') := by
  rcases h.retains_or_observes hd with ⟨-, hretains⟩ | ⟨m, tag, -, -, heq⟩
  · exact hretains.keeps
  · rw [heq]
    exact Registry.keeps_observe r k _

/-- What the scheduling of an equation depends on. -/
def Equation.progress (e : Equation) : String × ParsedEquation × Bool × Bool :=
  (e.source, e.reading, e.isScheduled, e.state.isWaiting)

/-- Neither listeners nor given evaluations matter. -/
theorem Command.Amends.progress {c : Command} {place : Nat} {f : Equation → Equation} (h : c.Amends place f)
    (e : Equation) : (f e).progress = e.progress := by
  cases h <;> rfl

/-- Commands other than direct solves and the end of the session. -/
def Command.isIndirect : Command → Bool
  | .solve _ => false
  | .close => false
  | _ => true

namespace Session

variable {s s' t : Session} {c : Command} {place : Nat}

/-- Every equation observes its coefficients, every scheduled equation is among the submissions, all of which
are ready, and what the worker has taken waits no longer. -/
structure Tracks (s : Session) : Prop where
  isOpen : s.isClosed = false
  observed : ∀ (i : Nat) (e : Equation), s.equations[i]? = some e → ∀ k ∈ e.coefficients,
    ∃ c, s.registry.find? k = some c ∧ .equation i ∈ c.observers
  scheduled : ∀ (i : Nat) (e : Equation), s.equations[i]? = some e → e.isScheduled = true → i ∈ s.submissions
  bound : s.taken ≤ s.submissions.length
  taken : ∀ i ∈ s.submissions.take s.taken, ∀ e, s.equations[i]? = some e → e.state.isWaiting = false
  submitted : ∀ i ∈ s.submissions, ∃ e, s.equations[i]? = some e ∧ e.isReady s.registry = true

/-- Besides, every ready equation is scheduled. -/
structure Schedules (s : Session) : Prop extends Tracks s where
  ready : ∀ e ∈ s.equations, e.isEmpty = false → e.isReady s.registry = true → e.isScheduled = true

theorem schedules_start (configuration : Configuration) : (Session.start configuration).Schedules where
  isOpen := rfl
  observed _ _ he := nomatch he
  scheduled _ _ he := nomatch he
  bound := Nat.le_refl 0
  taken _ hi := nomatch hi
  submitted _ hi := nomatch hi
  ready _ he := nomatch he

/-! ## Submissions -/

theorem Tracks.submits (h : s.Tracks) (hs : s.Submits s') : s'.Tracks where
  isOpen := hs.isClosed.trans h.isOpen
  observed i e' he' k hk := by
    obtain ⟨e, he, hsubmitted, -⟩ := hs.equations i e' he'
    rw [hs.registry]
    exact h.observed i e he k (Equation.coefficients_congr hsubmitted.reading ▸ hk)
  scheduled i e' he' hscheduled := by
    obtain ⟨e, he, -, hnew⟩ := hs.equations i e' he'
    rcases hnew h.isOpen hscheduled with hold | hnew
    · exact hs.submissions.subset (h.scheduled i e he hold)
    · exact hnew
  bound := hs.taken ▸ Nat.le_trans h.bound hs.submissions.length_le
  taken i hi e' he' := by
    obtain ⟨e, he, hsubmitted, -⟩ := hs.equations i e' he'
    obtain ⟨more, hmore⟩ := hs.submissions
    rw [hs.taken, ← hmore, List.take_append_of_le_length h.bound] at hi
    rw [hsubmitted.state]
    exact h.taken i hi e he
  submitted i hi := by
    obtain ⟨e, he, hready⟩ := (hs.new i hi).elim (h.submitted i) id
    obtain ⟨e', he', hsubmitted⟩ := hs.exists_equation he
    refine ⟨e', he', ?_⟩
    rw [hs.registry, Equation.isReady_congr hsubmitted.reading]
    exact hready

theorem Schedules.submits (h : s.Schedules) (hs : s.Submits s') : s'.Schedules where
  toTracks := h.toTracks.submits hs
  ready e' he' hempty hready := by
    obtain ⟨i, hi⟩ := List.getElem?_of_mem he'
    obtain ⟨e, he, hsubmitted, -⟩ := hs.equations i e' hi
    have hreading := hsubmitted.reading
    rw [hs.registry, Equation.isReady_congr hreading] at hready
    rw [Equation.isEmpty, hreading] at hempty
    exact hsubmitted.isScheduled (h.ready e (List.mem_of_getElem? he) hempty hready)

/-! ## Changes before the observers are told -/

/-- A coefficient is completed. -/
theorem Tracks.complete (h : s.Tracks) {k : CoefficientKey} {c c' : Coefficient} {t : Tensor}
    (hc : s.registry.find? k = some c) (hcomplete : c.complete t = .ok c') :
    Tracks { s with registry := s.registry.put c' } := by
  obtain ⟨hkey, -, hfinished, -, hobservers⟩ := Coefficient.complete_frame hcomplete
  refine ⟨h.isOpen, fun i e he j hj => ?_, h.scheduled, h.bound, h.taken, fun i hi => ?_⟩
  · obtain ⟨d, hd, hmem⟩ := h.observed i e he j hj
    rw [Registry.find?_put_of_find? hc hkey]
    split
    · rename_i hjk
      obtain rfl := Option.some.inj (hd.symm.trans (hjk ▸ hc))
      exact ⟨c', rfl, hobservers.symm ▸ hmem⟩
    · exact ⟨d, hd, hmem⟩
  · obtain ⟨e, he, hready⟩ := h.submitted i hi
    refine ⟨e, he, List.all_eq_true.mpr fun j hj => ?_⟩
    unfold Registry.isFinished
    rw [Registry.find?_put_of_find? hc hkey]
    split
    · exact hfinished
    · exact List.all_eq_true.mp hready j hj

/-- An equation is added that observes its coefficients. -/
theorem Tracks.append (h : s.Tracks) {e : Equation} (hunscheduled : e.isScheduled = false) :
    Tracks { s with
      registry := s.registry.observeAll (.equation s.equations.length) e.coefficients
      equations := s.equations ++ [e] } := by
  have hkeeps := Registry.keeps_observeAll (.equation s.equations.length) e.coefficients s.registry
  refine ⟨h.isOpen, fun i d hd k hk => ?_, fun i d hd hs => ?_, h.bound, fun i hi d hd => ?_, fun i hi => ?_⟩
  · rcases getElem?_append_cases hd with hold | ⟨rfl, rfl⟩
    · obtain ⟨c, hc, hmem⟩ := h.observed i d hold k hk
      obtain ⟨c', hc', hsub⟩ := hkeeps.observers k c hc
      exact ⟨c', hc', hsub hmem⟩
    · exact ⟨_, (Registry.find?_observeAll d.nodup_coefficients).trans (if_pos hk),
        List.mem_append_right _ List.mem_cons_self⟩
  · rcases getElem?_append_cases hd with hold | ⟨-, rfl⟩
    · exact h.scheduled i d hold hs
    · exact absurd (hunscheduled.symm.trans hs) (nomatch ·)
  · rcases getElem?_append_cases hd with hold | ⟨rfl, -⟩
    · exact h.taken i hi d hold
    · obtain ⟨d, hd, -⟩ := h.submitted _ (List.mem_of_mem_take hi)
      exact absurd (List.getElem?_eq_some_iff.mp hd).1 (Nat.lt_irrefl _)
  · obtain ⟨d, hd, hready⟩ := h.submitted i hi
    obtain ⟨hlt, -⟩ := List.getElem?_eq_some_iff.mp hd
    refine ⟨d, (List.getElem?_append_left hlt).trans hd, ?_⟩
    rw [hkeeps.isReady]
    exact hready

/-- What the worker has taken after its next turn. -/
theorem take_of_pending {rest : List Nat} (hpending : s.pending = place :: rest) :
    s.submissions.take (s.taken + 1) = s.submissions.take s.taken ++ [place] := by
  have hhead := congrArg List.head? hpending
  rw [pending, List.head?_drop] at hhead
  rw [List.take_add_one, hhead]
  rfl

/-! ## Steps -/

namespace Schedules

/-- A step that schedules nothing and finishes no coefficient. -/
theorem keeps (h : s.Schedules) (hr : s.registry.Keeps s'.registry) (hclosed : s'.isClosed = s.isClosed)
    (hsubmissions : s'.submissions = s.submissions) (htaken : s'.taken = s.taken)
    (hlength : s'.equations.length = s.equations.length)
    (hequations : ∀ (i : Nat) (e' : Equation), s'.equations[i]? = some e' →
      ∃ e, s.equations[i]? = some e ∧ e'.reading = e.reading ∧ e'.isScheduled = e.isScheduled ∧
        (e.state.isWaiting = false → e'.state.isWaiting = false)) : s'.Schedules where
  isOpen := hclosed.trans h.isOpen
  observed i e' he' k hk := by
    obtain ⟨e, he, hreading, -⟩ := hequations i e' he'
    obtain ⟨c, hc, hmem⟩ := h.observed i e he k (Equation.coefficients_congr hreading ▸ hk)
    obtain ⟨c', hc', hsub⟩ := hr.observers k c hc
    exact ⟨c', hc', hsub hmem⟩
  scheduled i e' he' hs := by
    obtain ⟨e, he, -, hscheduled, -⟩ := hequations i e' he'
    rw [hsubmissions]
    exact h.scheduled i e he (hscheduled ▸ hs)
  bound := by
    rw [htaken, hsubmissions]
    exact h.bound
  taken i hi e' he' := by
    obtain ⟨e, he, -, -, hstate⟩ := hequations i e' he'
    rw [htaken, hsubmissions] at hi
    exact hstate (h.taken i hi e he)
  submitted i hi := by
    obtain ⟨e, he, hready⟩ := h.submitted i (hsubmissions ▸ hi)
    obtain ⟨hlt, -⟩ := List.getElem?_eq_some_iff.mp he
    have hlt' : i < s'.equations.length := hlength.symm ▸ hlt
    obtain ⟨d, hd, hreading, -⟩ := hequations i _ (List.getElem?_eq_getElem hlt')
    obtain rfl := Option.some.inj (he.symm.trans hd)
    refine ⟨_, List.getElem?_eq_getElem hlt', ?_⟩
    rw [Equation.isReady_congr hreading, hr.isReady]
    exact hready
  ready e' he' hempty hready := by
    obtain ⟨i, hi⟩ := List.getElem?_of_mem he'
    obtain ⟨e, he, hreading, hscheduled, -⟩ := hequations i e' hi
    rw [Equation.isEmpty, hreading] at hempty
    rw [Equation.isReady_congr hreading] at hready
    rw [hscheduled]
    exact h.ready e (List.mem_of_getElem? he) hempty (hr.isReady ▸ hready)

/-- A step that changes the registry only. -/
theorem keeps_registry (h : s.Schedules) {r : Registry} (hr : s.registry.Keeps r) :
    Session.Schedules { s with registry := r } :=
  h.keeps hr rfl rfl rfl rfl fun _ e he => ⟨e, he, rfl, rfl, id⟩

/-- A coefficient is completed, and its observers are told. -/
theorem complete (h : s.Schedules) {k : CoefficientKey} {c c' : Coefficient} {t : Tensor}
    (hc : s.registry.find? k = some c) (hcomplete : c.complete t = .ok c') :
    ({ s with registry := s.registry.put c' }.announce k c'.observers).1.Schedules := by
  obtain ⟨hkey, -, -, -, hobservers⟩ := Coefficient.complete_frame hcomplete
  have hput := h.toTracks.complete hc hcomplete
  have hannounce := announce_submits c'.observers { s with registry := s.registry.put c' } k
  refine ⟨hput.submits hannounce, fun e' he' hempty hready => ?_⟩
  obtain ⟨i, hi⟩ := List.getElem?_of_mem he'
  obtain ⟨e, he, hsubmitted, -⟩ := hannounce.equations i e' hi
  rw [hannounce.registry] at hready
  by_cases hmem : k ∈ e.coefficients
  · obtain ⟨d, hd, hobserver⟩ := h.observed i e he k hmem
    obtain rfl := Option.some.inj (hd.symm.trans hc)
    exact (announce_scheduled _ _ k hput.isOpen).2 i (hobservers.symm ▸ hobserver) e' hi hempty hready
  · have hreading := hsubmitted.reading
    rw [Equation.isEmpty, hreading] at hempty
    rw [Equation.isReady_congr hreading] at hready
    refine hsubmitted.isScheduled (h.ready e (List.mem_of_getElem? he) hempty ?_)
    refine List.all_eq_true.mpr fun j hj => ?_
    have hfinished := List.all_eq_true.mp hready j hj
    have hne : j ≠ k := fun hjk => hmem (hjk ▸ hj)
    unfold Registry.isFinished at hfinished ⊢
    rwa [Registry.find?_put_of_find? hc hkey, if_neg hne] at hfinished

/-- An equation is added and told. -/
theorem append (h : s.Schedules) {e : Equation} (hunscheduled : e.isScheduled = false) :
    ({ s with
      registry := s.registry.observeAll (.equation s.equations.length) e.coefficients
      equations := s.equations ++ [e] }.notify s.equations.length).1.Schedules := by
  have hkeeps := Registry.keeps_observeAll (.equation s.equations.length) e.coefficients s.registry
  have hadded := h.toTracks.append hunscheduled
  have hnotify := notify_submits { s with
    registry := s.registry.observeAll (.equation s.equations.length) e.coefficients
    equations := s.equations ++ [e] } s.equations.length
  refine ⟨hadded.submits hnotify, fun d' hd' hempty hready => ?_⟩
  obtain ⟨i, hi⟩ := List.getElem?_of_mem hd'
  obtain ⟨d, hd, hsubmitted, -⟩ := hnotify.equations i d' hi
  rw [hnotify.registry] at hready
  rcases getElem?_append_cases hd with hold | ⟨rfl, -⟩
  · have hreading := hsubmitted.reading
    rw [Equation.isEmpty, hreading] at hempty
    rw [Equation.isReady_congr hreading] at hready
    exact hsubmitted.isScheduled
      (h.ready d (List.mem_of_getElem? hold) hempty (hkeeps.isReady ▸ hready))
  · exact (notify_scheduled hadded.isOpen _).2 d' hi hempty hready

/-- An equation is changed in nothing that its scheduling depends on. -/
theorem modifyEquation (h : s.Schedules) {f : Equation → Equation} (hf : ∀ e, (f e).progress = e.progress)
    (place : Nat) : (s.modifyEquation place f).Schedules := by
  refine h.keeps (Registry.keeps_refl _) rfl rfl rfl (List.length_modify ..) fun i e' he' => ?_
  have hprogress : (s.modifyEquation place f).equations[i]?.map Equation.progress =
      s.equations[i]?.map Equation.progress := map_getElem?_modify hf s.equations place i
  rw [he', Option.map_some] at hprogress
  obtain ⟨e, he, heq⟩ := Option.map_eq_some_iff.mp hprogress.symm
  simp only [Equation.progress, Prod.mk.injEq] at heq
  exact ⟨e, he, heq.2.1.symm, heq.2.2.1.symm, fun hw => heq.2.2.2 ▸ hw⟩

/-- **A command.** -/
theorem effect (h : s.Schedules) (heffect : s.Effect c s') (hc : c.isIndirect = true) : s'.Schedules := by
  cases heffect with
  | nothing => exact h
  | adds _ _ _ unscheduled => exact h.append unscheduled
  | completes _ found _ completed => exact h.complete found completed
  | changes changed found => exact h.keeps_registry (changed.keeps found)
  | amends amended => exact h.modifyEquation amended.progress _
  | notifies place => exact h.submits (notify_submits s place)
  | solves | closes => cases hc

/-- A step that gives one equation a state in which it waits no longer. -/
theorem set_state (h : s.Schedules) {e : Equation} (he : s.equations[place]? = some e) {r : Registry}
    (hr : s.registry.Keeps r) {state : EquationState} (hstate : state.isWaiting = false)
    {events : List Event} : Session.Schedules { s with
      registry := r
      equations := s.equations.set place { e with state := state }
      events := events } := by
  refine h.keeps hr rfl rfl rfl List.length_set fun i e' he' => ?_
  change (s.equations.set place { e with state := state })[i]? = some e' at he'
  rcases getElem?_set_cases he' with ⟨rfl, rfl⟩ | ⟨-, hold⟩
  · exact ⟨e, he, rfl, rfl, fun _ => hstate⟩
  · exact ⟨e', hold, rfl, rfl, id⟩

/-- The submission that the worker takes next is ready. -/
theorem exists_of_pending (h : s.Schedules) {rest : List Nat} (hpending : s.pending = place :: rest) :
    ∃ e, s.equations[place]? = some e ∧ e.isReady s.registry = true := by
  refine h.submitted place (List.mem_of_mem_drop (i := s.taken) ?_)
  rw [show s.submissions.drop s.taken = place :: rest from hpending]
  exact List.mem_cons_self

/-- **One turn of the worker**; what it takes waits no longer. -/
theorem turn (h : s.Schedules) {rest : List Nat} (hpending : s.pending = place :: rest) :
    (s.turn place).Schedules := by
  have hbound : s.taken < s.submissions.length := by
    have hlength := congrArg List.length hpending
    rw [pending, List.length_drop, List.length_cons] at hlength
    omega
  have hsolved : (s.solve place).1.Schedules ∧
      ∀ e, (s.solve place).1.equations[place]? = some e → e.state.isWaiting = false := by
    rcases solve_settles s place with ⟨heq, hno⟩ | ⟨e, state, he, -, hterminal, heq⟩ <;> rw [heq]
    · exact ⟨h, hno⟩
    · have hstate := EquationState.isWaiting_of_isTerminal hterminal
      obtain ⟨hlt, -⟩ := List.getElem?_eq_some_iff.mp he
      refine ⟨h.set_state he (Registry.retains_solve _ e).keeps hstate, fun d hd => ?_⟩
      rw [← Option.some.inj ((List.getElem?_set_self hlt).symm.trans hd)]
      exact hstate
  obtain ⟨hsubmissions, htaken⟩ := solve_submissions s place
  obtain ⟨hs, hwaiting⟩ := hsolved
  refine ⟨⟨hs.isOpen, hs.observed, hs.scheduled, ?_, fun i hi e he => ?_, hs.submitted⟩, hs.ready⟩
  · show s.taken + 1 ≤ (s.solve place).1.submissions.length
    rw [hsubmissions]
    exact hbound
  · change i ∈ (s.solve place).1.submissions.take (s.taken + 1) at hi
    change (s.solve place).1.equations[i]? = some e at he
    rw [hsubmissions, take_of_pending hpending] at hi
    rcases List.mem_append.mp hi with hi | hi
    · rw [← hsubmissions, ← htaken] at hi
      exact hs.taken i hi e he
    · obtain rfl := List.mem_singleton.mp hi
      exact hwaiting e he

/-! ## The end of the work -/

/-- **When the worker is done no ready equation waits.** -/
theorem isWaiting_of_done (h : s.Schedules) (hdone : s.pending = []) {e : Equation} (he : e ∈ s.equations)
    (hempty : e.isEmpty = false) (hready : e.isReady s.registry = true) : e.state.isWaiting = false := by
  obtain ⟨i, hi⟩ := List.getElem?_of_mem he
  have hsubmitted := h.scheduled i e hi (h.ready e he hempty hready)
  have hall : s.submissions.take s.taken = s.submissions :=
    List.take_of_length_le (List.drop_eq_nil_iff.mp hdone)
  exact h.taken i (hall.symm ▸ hsubmitted) e hi

end Schedules

end Session

end TensorEquations
