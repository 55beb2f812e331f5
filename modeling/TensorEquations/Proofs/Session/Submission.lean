import TensorEquations.Session.Basic

/-!
# Submission

* `Session.Submits` — equations are submitted, and nothing else happens.
* `Session.notify_submits`, `Session.announce_submits` — telling observers is of this kind.
* `Session.notify_scheduled`, `Session.announce_scheduled` — **whoever is told and has its coefficients
  finished is submitted.**
-/

namespace TensorEquations

/-- What can become of an equation by its submission. -/
structure Equation.Submitted (e e' : Equation) : Prop where
  eq : e' = { e with isScheduled := e'.isScheduled }
  isScheduled : e.isScheduled = true → e'.isScheduled = true

namespace Equation.Submitted

variable {e e' e'' : Equation}

theorem refl (e : Equation) : e.Submitted e := ⟨rfl, id⟩

theorem trans (h : e.Submitted e') (h' : e'.Submitted e'') : e.Submitted e'' :=
  ⟨by rw [h'.eq, h.eq], fun hs => h'.isScheduled (h.isScheduled hs)⟩

theorem source (h : e.Submitted e') : e'.source = e.source := by rw [h.eq]

theorem reading (h : e.Submitted e') : e'.reading = e.reading := by rw [h.eq]

theorem state (h : e.Submitted e') : e'.state = e.state := by rw [h.eq]

theorem given (h : e.Submitted e') : e'.given = e.given := by rw [h.eq]

end Equation.Submitted

namespace Session

/-- Equations are submitted, and only ready ones. In an open session every equation that becomes scheduled is
among the submissions. -/
structure Submits (s s' : Session) : Prop where
  configuration : s'.configuration = s.configuration
  registry : s'.registry = s.registry
  isClosed : s'.isClosed = s.isClosed
  taken : s'.taken = s.taken
  submissions : s.submissions <+: s'.submissions
  length : s'.equations.length = s.equations.length
  equations : ∀ (i : Nat) (e' : Equation), s'.equations[i]? = some e' →
    ∃ e, s.equations[i]? = some e ∧ e.Submitted e' ∧
      (s.isClosed = false → e'.isScheduled = true → e.isScheduled = true ∨ i ∈ s'.submissions)
  new : ∀ i ∈ s'.submissions, i ∈ s.submissions ∨
    ∃ e, s.equations[i]? = some e ∧ e.isReady s.registry = true

variable {s s' s'' : Session} {i place : Nat} {e e' : Equation}

namespace Submits

theorem refl (s : Session) : s.Submits s where
  configuration := rfl
  registry := rfl
  isClosed := rfl
  taken := rfl
  submissions := List.prefix_rfl
  length := rfl
  equations _ e he := ⟨e, he, .refl e, fun _ => .inl⟩
  new _ := .inl

theorem trans (h : s.Submits s') (h' : s'.Submits s'') : s.Submits s'' where
  configuration := h'.configuration.trans h.configuration
  registry := h'.registry.trans h.registry
  isClosed := h'.isClosed.trans h.isClosed
  taken := h'.taken.trans h.taken
  submissions := h.submissions.trans h'.submissions
  length := h'.length.trans h.length
  equations i e'' he'' := by
    obtain ⟨e', he', hsubmitted', hnew'⟩ := h'.equations i e'' he''
    obtain ⟨e, he, hsubmitted, hnew⟩ := h.equations i e' he'
    refine ⟨e, he, hsubmitted.trans hsubmitted', fun hopen hs => ?_⟩
    rcases hnew' (h.isClosed.trans hopen) hs with hs' | hs'
    · exact (hnew hopen hs').imp_right fun hmem => h'.submissions.subset hmem
    · exact .inr hs'
  new i hi := by
    rcases h'.new i hi with hi | ⟨e', he', hready⟩
    · exact h.new i hi
    · obtain ⟨e, he, hsubmitted, -⟩ := h.equations i e' he'
      refine .inr ⟨e, he, ?_⟩
      rw [Equation.isReady, Equation.coefficients, ← hsubmitted.reading, ← h.registry]
      exact hready

/-- What was told to an equation. -/
theorem exists_equation (h : s.Submits s') (he : s.equations[i]? = some e) :
    ∃ e', s'.equations[i]? = some e' ∧ e.Submitted e' := by
  obtain ⟨hi, -⟩ := List.getElem?_eq_some_iff.mp he
  have hi' : i < s'.equations.length := h.length.symm ▸ hi
  obtain ⟨d, hd, hsubmitted, -⟩ := h.equations i _ (List.getElem?_eq_getElem hi')
  obtain rfl := Option.some.inj (he.symm.trans hd)
  exact ⟨_, List.getElem?_eq_getElem hi', hsubmitted⟩

end Submits

/-! ## One equation -/

theorem modify_submitted (he' : (s.equations.modify place fun e => { e with isScheduled := true })[i]? =
    some e') : ∃ e, s.equations[i]? = some e ∧ e.Submitted e' ∧
      (e'.isScheduled = true → e.isScheduled = true ∨ i = place) := by
  rw [List.getElem?_modify] at he'
  obtain ⟨e, he, rfl⟩ := Option.map_eq_some_iff.mp he'
  refine ⟨e, he, ?_⟩
  split
  · rename_i hplace
    exact ⟨⟨rfl, fun _ => rfl⟩, fun _ => .inr hplace.symm⟩
  · exact ⟨.refl e, .inl⟩

theorem notify_submits (s : Session) (place : Nat) : s.Submits (s.notify place).1 := by
  unfold notify
  split
  · exact .refl s
  · rename_i e he
    split
    · exact .refl s
    · rename_i hsubmit
      simp only
      split
      · rename_i hclosed
        refine ⟨rfl, rfl, rfl, rfl, List.prefix_rfl, List.length_modify .., fun i e' he' => ?_, fun _ => .inl⟩
        obtain ⟨d, hd, hsubmitted, -⟩ := modify_submitted he'
        exact ⟨d, hd, hsubmitted, fun hopen => absurd (hopen.symm.trans hclosed) (nomatch ·)⟩
      · refine ⟨rfl, rfl, rfl, rfl, List.prefix_append _ _, List.length_modify .., fun i e' he' => ?_,
          fun i hi => ?_⟩
        · obtain ⟨d, hd, hsubmitted, hnew⟩ := modify_submitted he'
          exact ⟨d, hd, hsubmitted, fun _ hs => (hnew hs).imp_right fun hplace =>
            List.mem_append_right _ (List.mem_singleton.mpr hplace)⟩
        · refine (List.mem_append.mp hi).imp_right fun hi => ?_
          rw [List.mem_singleton.mp hi]
          refine ⟨e, he, ?_⟩
          simp only [Bool.or_eq_true, Bool.not_eq_true', not_or, Bool.not_eq_false] at hsubmit
          exact hsubmit.2

/-- In an open session an equation that is told and ready is scheduled. -/
theorem notify_scheduled (hopen : s.isClosed = false) (place : Nat) : (s.notify place).2 = none ∧
    ∀ e', (s.notify place).1.equations[place]? = some e' → e'.isEmpty = false →
      e'.isReady s.registry = true → e'.isScheduled = true := by
  unfold notify
  split
  · rename_i hnone
    exact ⟨rfl, fun e' he' => (nomatch hnone.symm.trans he')⟩
  · rename_i e he
    split
    · rename_i hno
      refine ⟨rfl, fun e' he' hempty hready => ?_⟩
      obtain rfl := Option.some.inj (he.symm.trans he')
      simpa [hempty, hready] using hno
    · have hopen' : (s.modifyEquation place fun e => { e with isScheduled := true }).isClosed = false := hopen
      simp only [hopen', Bool.false_eq_true, if_false]
      refine ⟨trivial, fun e' he' _ _ => ?_⟩
      change (s.equations.modify place _)[place]? = _ at he'
      rw [List.getElem?_modify, he, Option.map_eq_map, Option.map_some, if_pos rfl] at he'
      rw [← Option.some.inj he']

/-! ## All observers -/

theorem announce_submits : ∀ (os : List Observer) (s : Session) (k : CoefficientKey),
    s.Submits (s.announce k os).1
  | [], s, _ => .refl s
  | .listener tag :: os, s, k => by
    have htold : s.Submits { s with events := s.events ++ [.coefficientFinished tag k] } :=
      ⟨rfl, rfl, rfl, rfl, List.prefix_rfl, rfl, fun i e he => ⟨e, he, .refl e, fun _ => .inl⟩, fun _ => .inl⟩
    exact htold.trans (announce_submits os _ k)
  | .equation place :: os, s, k => by
    have hnotify := notify_submits s place
    rw [announce]
    split
    · rename_i heq
      rw [heq] at hnotify
      exact hnotify.trans (announce_submits os _ k)
    · rename_i heq
      rw [heq] at hnotify
      exact hnotify

/-- **In an open session every equation among the observers that is ready is scheduled.** -/
theorem announce_scheduled : ∀ (os : List Observer) (s : Session) (k : CoefficientKey),
    s.isClosed = false → (s.announce k os).2 = none ∧
      ∀ place, .equation place ∈ os → ∀ e', (s.announce k os).1.equations[place]? = some e' →
        e'.isEmpty = false → e'.isReady s.registry = true → e'.isScheduled = true
  | [], _, _, _ => ⟨rfl, fun _ hmem => (nomatch hmem)⟩
  | .listener tag :: os, s, k, hopen => by
    obtain ⟨hnone, htold⟩ := announce_scheduled os
      { s with events := s.events ++ [.coefficientFinished tag k] } k hopen
    refine ⟨hnone, fun place hmem => htold place ?_⟩
    exact (List.mem_cons.mp hmem).resolve_left fun h => (nomatch h)
  | .equation place :: os, s, k, hopen => by
    obtain ⟨hnone, hscheduled⟩ := notify_scheduled hopen place
    have hnotify := notify_submits s place
    rw [announce]
    split
    · rename_i s' heq
      rw [heq] at hnone hscheduled hnotify
      obtain ⟨hnone', htold⟩ := announce_scheduled os s' k (hnotify.isClosed.trans hopen)
      refine ⟨hnone', fun i hi e'' he'' hempty hready => ?_⟩
      rcases List.mem_cons.mp hi with hi | hi
      · obtain rfl : i = place := by
          cases hi
          rfl
        obtain ⟨e', he', hsubmitted, -⟩ := (announce_submits os s' k).equations i e'' he''
        have hreading := hsubmitted.reading
        have hempty' : e'.isEmpty = false := by
          rw [Equation.isEmpty, ← hreading]
          exact hempty
        have hready' : e'.isReady s.registry = true := by
          rw [Equation.isReady, Equation.coefficients, ← hreading]
          exact hready
        exact hsubmitted.isScheduled (hscheduled e' he' hempty' hready')
      · exact htold i hi e'' he'' hempty (hnotify.registry ▸ hready)
    · rename_i s' error heq
      rw [heq] at hnone
      cases hnone

end Session

end TensorEquations
