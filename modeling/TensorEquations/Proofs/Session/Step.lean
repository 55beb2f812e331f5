import TensorEquations.Proofs.Equation.Solving
import TensorEquations.Proofs.Session.Submission
import TensorEquations.Session.Command

/-!
# What each operation of a session does

Every operation leaves the session as it is, or does one thing to it and tells the observers.

* `Session.notify_cases`, `Session.complete_cases`, `Session.completeGeneral_cases`,
  `Session.addEquation_cases` — **an operation that may submit equations.**
* `Session.setTensor_cases`, `Session.lock_cases`, `Session.unlock_cases`, `Session.applyOrDefer_cases` — an
  operation on one coefficient.
* `Session.observeEquation_equations` — a further listener of an equation.
* `Session.solve_cases`, `Session.solve_settles`, `Session.solveNow_cases` — the solve of an equation.
-/

namespace TensorEquations

theorem EquationState.isWaiting_of_isTerminal {state : EquationState} (h : state.isTerminal = true) :
    state.isWaiting = false := by
  cases state with
  | waiting => cases h
  | _ => rfl

theorem EquationState.isWaiting_eq_false {state : EquationState} (h : state.isSolved = true) :
    state.isWaiting = false := isWaiting_of_isTerminal (Bool.or_eq_true_iff.mpr (.inl h))

namespace Session

variable {s s' : Session} {k : CoefficientKey} {place : Nat}

theorem outcome_fst (result : Session × Option SessionError) : (outcome result).1 = result.1 := by
  obtain ⟨s, _ | error⟩ := result <;> rfl

/-! ## Operations that may submit equations -/

/-- In an open session an equation is submitted if it is ready, not empty and not scheduled yet. -/
theorem notify_cases (hopen : s.isClosed = false) (place : Nat) : (s.notify place).1 = s ∨
    ∃ e, s.equations[place]? = some e ∧ e.isEmpty = false ∧ e.isScheduled = false ∧
      e.isReady s.registry = true ∧ (s.notify place).1 = { s with
        equations := s.equations.modify place fun e => { e with isScheduled := true }
        submissions := s.submissions ++ [place] } := by
  unfold notify
  split
  · exact .inl rfl
  · rename_i e he
    split
    · exact .inl rfl
    · rename_i hsubmit
      simp only [Bool.or_eq_true, Bool.not_eq_true', not_or, Bool.not_eq_true, Bool.not_eq_false] at hsubmit
      have hopen' : (s.modifyEquation place fun e => { e with isScheduled := true }).isClosed = false := hopen
      refine .inr ⟨e, he, hsubmit.1.1, hsubmit.1.2, hsubmit.2, ?_⟩
      simp only
      rw [if_neg (Bool.eq_false_iff.mp hopen')]
      rfl

theorem complete_cases (s : Session) (k : CoefficientKey) (t : Tensor) : (s.complete k t).1 = s ∨
    ∃ c c', s.registry.find? k = some c ∧ c.isLocked = false ∧ c.complete t = .ok c' ∧
      s.complete k t = { s with registry := s.registry.put c' }.announce k c'.observers := by
  unfold complete
  split
  · exact .inl rfl
  · rename_i c hc
    split
    · exact .inl rfl
    · rename_i hfree
      cases hcomplete : c.complete t with
      | error error => exact .inl rfl
      | ok c' =>
          refine .inr ⟨c, c', hc, ?_, hcomplete, rfl⟩
          have hrank : ((t.rank : Int) == k.rank) = true :=
            beq_iff_eq.mpr (Registry.key_of_find? hc ▸ (Coefficient.complete_ok hcomplete).1)
          rw [hrank, Bool.and_true] at hfree
          exact Bool.eq_false_iff.mpr hfree

theorem completeGeneral_cases (s : Session) (k : CoefficientKey) (name : String) :
    (s.completeGeneral k name).1 = s ∨ ∃ t, Tensor.general k.labels s.configuration.dimension
      (if name.isEmpty then k.name else name) = .ok t ∧ s.completeGeneral k name = s.complete k t := by
  unfold completeGeneral
  split
  · exact .inl rfl
  · split
    · exact .inl rfl
    · rename_i t ht
      exact .inr ⟨t, ht, rfl⟩

theorem addEquation_cases (s : Session) (code : String) : (s.addEquation code).1 = s ∨
    ∃ e : Equation, e.source = code ∧ parseEquation code = .ok e.reading ∧ e.state = .waiting ∧
      e.given = none ∧ e.isScheduled = false ∧
      s.addEquation code = { s with
        registry := s.registry.observeAll (.equation s.equations.length) e.coefficients
        equations := s.equations ++ [e] }.notify s.equations.length := by
  unfold addEquation
  split
  · exact .inl rfl
  · rename_i reading hreading
    simp only
    split
    · exact .inl rfl
    · exact .inr ⟨{ source := code, reading := reading }, rfl, hreading, rfl, rfl, rfl, rfl⟩

/-! ## Changes of the equations -/

/-- An equation is one of the old ones or the one that is added. -/
theorem getElem?_append_cases {es : List Equation} {e d : Equation} {i : Nat} (h : (es ++ [e])[i]? = some d) :
    es[i]? = some d ∨ i = es.length ∧ d = e := by
  rcases Nat.lt_or_ge i es.length with hi | hi
  · rw [List.getElem?_append_left hi] at h
    exact .inl h
  · rw [List.getElem?_append_right hi, List.getElem?_singleton] at h
    split at h
    · exact .inr ⟨by omega, (Option.some.inj h).symm⟩
    · cases h

/-- An equation is the one that is put in, or it is in another place. -/
theorem getElem?_set_cases {es : List Equation} {e d : Equation} {i : Nat} (h : (es.set place e)[i]? = some d) :
    i = place ∧ d = e ∨ i ≠ place ∧ es[i]? = some d := by
  by_cases hi : i = place
  · subst hi
    obtain ⟨hlt, -⟩ := List.getElem?_eq_some_iff.mp h
    rw [List.getElem?_set_self (List.length_set ▸ hlt)] at h
    exact .inl ⟨rfl, (Option.some.inj h).symm⟩
  · rw [List.getElem?_set_ne (Ne.symm hi)] at h
    exact .inr ⟨hi, h⟩

/-- What the equation that is put in has in common with the one that was there. -/
theorem map_getElem?_set {α : Type*} {p : Equation → α} {es : List Equation} {e : Equation}
    (he : es[place]? = some e) {d : Equation} (hd : p d = p e) (i : Nat) :
    (es.set place d)[i]?.map p = es[i]?.map p := by
  by_cases hi : i = place
  · subst hi
    obtain ⟨hlt, -⟩ := List.getElem?_eq_some_iff.mp he
    rw [List.getElem?_set_self hlt, he, Option.map_some, Option.map_some, hd]
  · rw [List.getElem?_set_ne (Ne.symm hi)]

/-- What a change leaves alone. -/
theorem map_getElem?_modify {α : Type*} {p : Equation → α} {f : Equation → Equation} (hf : ∀ e, p (f e) = p e)
    (es : List Equation) (place i : Nat) : (es.modify place f)[i]?.map p = es[i]?.map p := by
  rw [List.getElem?_modify, Option.map_eq_map, Option.map_map]
  refine Option.map_congr fun e _ => ?_
  rw [Function.comp_apply]
  split
  · exact hf e
  · rfl

/-! ## Operations on one coefficient -/

theorem setTensor_cases (s : Session) (k : CoefficientKey) (t : Tensor) : (s.setTensor k t).1 = s ∨
    ∃ c c', s.registry.find? k = some c ∧ c.setTensor t = .ok c' ∧
      (s.setTensor k t).1 = { s with registry := s.registry.put c' } := by
  unfold setTensor
  split
  · exact .inl rfl
  · rename_i c hc
    cases hset : c.setTensor t with
    | error error => exact .inl rfl
    | ok c' => exact .inr ⟨c, c', hc, hset, rfl⟩

theorem lock_cases (s : Session) (k : CoefficientKey) : (s.lock k).1 = s ∨
    s.registry.isLocked k = false ∧ (s.lock k).1 = s.modifyCoefficient k Coefficient.lock := by
  unfold lock
  split
  · exact .inl rfl
  · rename_i hfree
    exact .inr ⟨Bool.eq_false_iff.mpr hfree, rfl⟩

theorem unlock_cases (s : Session) (k : CoefficientKey) : (s.unlock k).1 = s ∨
    ∃ c, s.registry.find? k = some c ∧
      (s.unlock k).1 = { s with registry := s.registry.put c.unlock.1 } := by
  unfold unlock
  split
  · exact .inl rfl
  · rename_i c hc
    exact .inr ⟨c, hc, rfl⟩

theorem applyOrDefer_cases (s : Session) (k : CoefficientKey) (f : Revision) :
    (s.applyOrDefer k f).1 = s ∨ ∃ c c' b, s.registry.find? k = some c ∧
      c.applyOrDefer f = .ok (c', b) ∧
      (s.applyOrDefer k f).1 = { s with registry := s.registry.put c' } := by
  unfold applyOrDefer
  split
  · exact .inl rfl
  · rename_i c hc
    cases happly : c.applyOrDefer f with
    | error reason => exact .inl rfl
    | ok taken => exact .inr ⟨c, taken.1, taken.2, hc, happly, rfl⟩

/-! ## Listeners -/

/-- A listener changes nothing else of an equation. -/
theorem observeEquation_equations {tag : String} {i : Nat} {e' : Equation}
    (he' : (s.execute (.observeEquation place tag)).1.equations[i]? = some e') :
    ∃ e, s.equations[i]? = some e ∧ e' = { e with listeners := e'.listeners } := by
  change (s.equations.modify place _)[i]? = _ at he'
  rw [List.getElem?_modify] at he'
  obtain ⟨e, he, rfl⟩ := Option.map_eq_some_iff.mp he'
  refine ⟨e, he, ?_⟩
  split <;> rfl

/-! ## Solves -/

theorem isBlocked_of_isHeldUp {e : Equation} (h : s.isHeldUp place = false)
    (he : s.equations[place]? = some e) : e.isBlocked s.registry = false := by
  unfold isHeldUp at h
  rw [he] at h
  exact h

/-- A waiting equation is solved, or it fails. -/
theorem solve_waiting {e : Equation} (he : s.equations[place]? = some e)
    (hwaiting : e.state.isWaiting = true) :
    (∃ u, (s.registry.solve e).2 = .ok u ∧ ∃ events, (s.solve place).1 = { s with
        registry := (s.registry.solve e).1
        equations := s.equations.set place { e with state := .solved u }
        events := events }) ∨
      ∃ cause error, (s.registry.solve e).2 = .error cause ∧ ∃ events, (s.solve place).1 = { s with
        registry := (s.registry.solve e).1
        equations := s.equations.set place { e with state := .failed error }
        events := events } := by
  unfold solve
  simp only [he, hwaiting, Registry.solve_state, Bool.not_true, Bool.false_eq_true, if_false]
  cases (s.registry.solve e).2 with
  | ok u => exact .inl ⟨u, rfl, _, rfl⟩
  | error cause => exact .inr ⟨cause, _, rfl, _, rfl⟩

theorem solve_cases (s : Session) (place : Nat) :
    ((s.solve place).1 = s ∧ ∀ e, s.equations[place]? = some e → e.state.isWaiting = false) ∨
      ∃ e, s.equations[place]? = some e ∧ e.state.isWaiting = true := by
  cases he : s.equations[place]? with
  | none => exact .inl ⟨by rw [solve, he], fun e h => (nomatch h)⟩
  | some e =>
      cases hwaiting : e.state.isWaiting with
      | true => exact .inr ⟨e, rfl, hwaiting⟩
      | false =>
          refine .inl ⟨?_, fun d hd => Option.some.inj hd ▸ hwaiting⟩
          simp [solve, he, hwaiting]

/-- Whether it is solved or fails, the registry is that of the solve, the equation is done and its listeners are told
so. -/
theorem solve_settles (s : Session) (place : Nat) :
    ((s.solve place).1 = s ∧ ∀ e, s.equations[place]? = some e → e.state.isWaiting = false) ∨
    ∃ e state, s.equations[place]? = some e ∧ e.state.isWaiting = true ∧ state.isTerminal = true ∧
      (s.solve place).1 = { s with
        registry := (s.registry.solve e).1
        equations := s.equations.set place { e with state := state }
        events := s.events ++ e.listeners.map fun tag => .equationFinished tag place state } := by
  rcases solve_cases s place with hsame | ⟨e, he, hwaiting⟩
  · exact .inl hsame
  obtain ⟨outcome, houtcome⟩ : ∃ outcome, (s.registry.solve e).2 = outcome := ⟨_, rfl⟩
  unfold solve
  simp only [he, hwaiting, Registry.solve_state, houtcome, Bool.not_true, Bool.false_eq_true, if_false]
  cases outcome with
  | ok u => exact .inr ⟨e, .solved u, rfl, hwaiting, rfl, rfl⟩
  | error cause => exact .inr ⟨e, .failed _, rfl, hwaiting, rfl, rfl⟩

theorem solveNow_cases (s : Session) (place : Nat) : (s.solveNow place).1 = s ∨
    s.isHeldUp place = false ∧ s.solveNow place = s.solve place := by
  unfold solveNow isHeldUp
  split
  · exact .inl rfl
  · rename_i e he
    split
    · exact .inl rfl
    · rename_i hfree
      refine .inr ⟨?_, rfl⟩
      rw [he]
      exact Bool.eq_false_iff.mpr hfree

end Session

end TensorEquations
