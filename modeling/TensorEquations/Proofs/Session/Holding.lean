import TensorEquations.Proofs.Coefficient.Holding
import TensorEquations.Proofs.Session.Atomicity

/-!
# One caller and one coefficient

What a caller asks of a coefficient in a session, request after request, without a turn of the worker.

* `Session.askAll`, `Session.answer` — a sequence of requests, and what a command answers.
* `Session.askAll_eq` — only the coefficient changes, as it does by itself.
* `Session.queued_revisions_run_once` — **every revision that a held coefficient accepts is applied once, in the
  order of acceptance, to the tensor that is stored at the release, and a failing one is passed over; the first
  failure is raised.**
-/

namespace TensorEquations

open Coefficient (Request)

/-- The command of a request to a coefficient. -/
def Coefficient.Request.command (m : Mention) : Request → Command
  | lock => .lock m
  | revise f => .applyOrDefer m f
  | replace t => .setTensor m t
  | unlock => .unlock m

namespace Session

/-- A coefficient in the place of the one with its key. -/
def putCoefficient (s : Session) (c : Coefficient) : Session := { s with registry := s.registry.put c }

/-- Requests to a coefficient one after the other. -/
def askAll (s : Session) (m : Mention) (rs : List Request) : Session :=
  (rs.map fun r => r.command m).foldl issue s

/-- What a command answers. -/
def answer (s : Session) (c : Command) : Except SessionError Reply :=
  ((c.mentions.foldl (fun s m => s.lookup m.key) s).execute c).2

variable {s : Session} {cs : List Command} {m : Mention} {c : Coefficient} {t : Tensor}

theorem lookup_of_find? (hc : s.registry.find? m.key = some c) : s.lookup m.key = s := by
  unfold lookup
  rw [Registry.register_of_find? hc]

theorem putCoefficient_self (hc : s.registry.find? m.key = some c) : s.putCoefficient c = s := by
  unfold putCoefficient
  rw [Registry.put_self hc]

theorem putCoefficient_twice {d : Coefficient} (hkey : d.key = c.key) :
    (s.putCoefficient c).putCoefficient d = s.putCoefficient d :=
  congrArg (fun r => { s with registry := r }) (Registry.put_put hkey)

theorem find?_putCoefficient {d : Coefficient} (hc : s.registry.find? m.key = some c) (hkey : d.key = c.key) :
    (s.putCoefficient d).registry.find? m.key = some d :=
  (Registry.find?_put_of_find? hc hkey).trans (if_pos rfl)

theorem issue_request (hc : s.registry.find? m.key = some c) (r : Request) :
    s.issue (r.command m) = s.putCoefficient (c.ask r) := by
  have hissue : s.issue (r.command m) = (s.execute (r.command m)).1 := by
    have hlookup := lookup_of_find? hc
    cases r <;> exact congrArg (fun s => (execute s _).1) hlookup
  rw [hissue]
  cases r with
  | lock =>
      rw [Request.command, execute, outcome_fst, lock, Registry.isLocked_of_find? hc]
      split
      · rename_i hl
        rw [Coefficient.ask, Coefficient.lock_of_held hl, putCoefficient_self hc]
      · rw [Coefficient.ask, putCoefficient, Registry.put_eq_modify Coefficient.lock_key hc]
        rfl
  | revise f =>
      show (s.applyOrDefer m.key f).1 = _
      simp only [applyOrDefer, hc, Coefficient.ask]
      cases c.applyOrDefer f with
      | error reason => exact (putCoefficient_self hc).symm
      | ok taken => rfl
  | replace t =>
      rw [Request.command, execute, outcome_fst]
      simp only [setTensor, hc, Coefficient.ask]
      cases c.setTensor t with
      | error error => exact (putCoefficient_self hc).symm
      | ok c' => rfl
  | unlock =>
      rw [Request.command, execute, outcome_fst, unlock, hc]
      rfl

/-- **A caller changes the coefficient and nothing else.** -/
theorem askAll_eq (hc : s.registry.find? m.key = some c) (hsound : c.IsSound) (rs : List Request) :
    s.askAll m rs = s.putCoefficient (c.askAll rs) := by
  induction rs using List.reverseRecOn with
  | nil => exact (putCoefficient_self hc).symm
  | append_singleton rs r ih =>
      obtain ⟨hkey, hsound'⟩ := hsound.askAll rs
      have hstep : s.askAll m (rs ++ [r]) = (s.askAll m rs).issue (r.command m) := by
        unfold askAll
        rw [List.map_append, List.foldl_append]
        rfl
      rw [hstep, ih, issue_request (find?_putCoefficient hc hkey), Coefficient.askAll_concat]
      exact putCoefficient_twice (hsound'.ask r).1

theorem find?_askAll (hc : s.registry.find? m.key = some c) (hsound : c.IsSound) (rs : List Request) :
    (s.askAll m rs).registry.find? m.key = some (c.askAll rs) := by
  rw [askAll_eq hc hsound]
  exact find?_putCoefficient hc (hsound.askAll rs).1

/-! ## Answers -/

theorem answer_revise_held (hc : s.registry.find? m.key = some c) (hf : c.isFinished = true)
    (hl : c.isLocked = true) (ht : c.tensor = some t) (f : Revision) :
    s.answer (.applyOrDefer m f) = .ok (.finished true) := by
  show ((s.lookup m.key).execute (.applyOrDefer m f)).2 = _
  rw [lookup_of_find? hc, execute, applyOrDefer, hc]
  simp only [Coefficient.applyOrDefer_held hf hl ht]
  rfl

/-- **The release of a held coefficient fails if and only if a revision of its queue fails**, and its error is the
first one. -/
theorem answer_unlock_held (hc : s.registry.find? m.key = some c) (hl : c.isLocked = true)
    (ht : c.tensor = some t) : (Succeed c.queue t ∧ s.answer (.unlock m) = .ok .done) ∨
      ∃ reason, FailsFirst c.queue t reason ∧
        s.answer (.unlock m) = .error (.coefficient (.deferredFailed c.name reason)) := by
  have hanswer : s.answer (.unlock m) =
      (outcome (s.putCoefficient c.unlock.1, c.unlock.2.map .coefficient)).2 := by
    show ((s.lookup m.key).execute (.unlock m)).2 = _
    rw [lookup_of_find? hc, execute, unlock, hc]
    rfl
  rw [hanswer, Coefficient.unlock_of_held hl ht]
  cases hfailure : (runQueue t c.queue).2 with
  | none => exact .inl ⟨runQueue_none hfailure, rfl⟩
  | some reason => exact .inr ⟨reason, runQueue_some hfailure, rfl⟩

/-! ## Any sequence of requests -/

/-- **Every accepted revision is applied exactly once.** Whatever a caller asks of a finished coefficient of a
running session, and whatever partial functions the revisions are: while the coefficient is held, its queue is what
was accepted since its lock was taken, in that order, and it goes on accepting; its release passes the tensor that
is stored then through the queue, skips what fails, leaves a free coefficient with an empty queue, and raises the
first failure if there is one. A free coefficient has no queue, and it makes no difference to it whether revisions
reach it at once or between its lock and its release. -/
theorem queued_revisions_run_once {configuration : Configuration} (hrun : Runs (start configuration) cs s)
    (hc : s.registry.find? m.key = some c) (hf : c.isFinished = true) (rs : List Request) : ∃ d t,
      s.askAll m rs = s.putCoefficient d ∧
      (s.askAll m rs).registry.find? m.key = some d ∧ d.isFinished = true ∧ d.tensor = some t ∧
      (d.isLocked = true →
        (∃ before during u v, (s.askAll m before).registry.find? m.key = some u ∧ u.tensor = some v ∧
          ((u.isLocked = false ∧ u.queue = [] ∧ rs = before ++ .lock :: during) ∨
            (u = c ∧ c.isLocked = true ∧ rs = during)) ∧
          .unlock ∉ during ∧ d.queue = u.queue ++ during.filterMap Request.revision? ∧
          t = (during.filterMap Request.tensor?).getLastD v) ∧
        (∀ f, (s.askAll m rs).answer (.applyOrDefer m f) = .ok (.finished true)) ∧
        s.askAll m (rs ++ [.unlock]) = s.putCoefficient
          { d with tensor := some (passAll d.queue t), isLocked := false, queue := [] } ∧
        ((Succeed d.queue t ∧ (s.askAll m rs).answer (.unlock m) = .ok .done) ∨
          ∃ reason, FailsFirst d.queue t reason ∧ (s.askAll m rs).answer (.unlock m) =
            .error (.coefficient (.deferredFailed d.name reason)))) ∧
      (d.isLocked = false → d.queue = [] ∧ ∀ fs : List Revision,
        s.askAll m (rs ++ fs.map .revise) = s.putCoefficient { d with tensor := some (passAll fs t) } ∧
        s.askAll m (rs ++ .lock :: fs.map .revise ++ [.unlock]) = s.askAll m (rs ++ fs.map .revise)) := by
  have hsound : c.IsSound := ⟨Registry.isConsistent_iff.mp hrun.isConsistent m.key c hc, hf⟩
  have hd := (hsound.askAll rs).2
  have hfind := find?_askAll hc hsound rs
  obtain ⟨t, ht⟩ := hd.tensor hd.finished
  refine ⟨c.askAll rs, t, askAll_eq hc hsound rs, hfind, hd.finished, ht, fun hl => ⟨?_, ?_, ?_, ?_⟩,
    fun hl => ⟨hd.queue hl, fun fs => ?_⟩⟩
  · obtain ⟨before, during, v, hspell, hqueue, htensor⟩ := hsound.exists_spell rs hl
    refine ⟨before, during, c.askAll before, v, find?_askAll hc hsound before, hspell.tensor, ?_, hspell.held,
      hqueue, Option.some.inj (ht.symm.trans htensor)⟩
    refine hspell.start.imp (fun ⟨hfree, heq⟩ => ?_) fun ⟨hbefore, hheld, heq⟩ => ?_
    · exact ⟨hfree, (hsound.askAll before).2.queue hfree, heq⟩
    · rw [hbefore]
      exact ⟨rfl, hheld, heq⟩
  · exact answer_revise_held hfind hd.finished hl ht
  · rw [askAll_eq hc hsound, Coefficient.askAll_concat, Coefficient.ask, Coefficient.unlock_of_held hl ht]
  · exact answer_unlock_held hfind hl ht
  · refine ⟨?_, ?_⟩
    · rw [askAll_eq hc hsound, Coefficient.askAll_append, Coefficient.askAll_revise hd.finished hl ht]
    · rw [askAll_eq hc hsound, askAll_eq hc hsound, List.append_assoc, Coefficient.askAll_append,
        hd.askAll_held hl, ← Coefficient.askAll_append]

/-- A scalar coefficient is completed; under its lock a revision that fails and one that negates. -/
theorem queued_revisions_run_once_failing : ∃ (s : Session) (d : Coefficient) (t : Tensor),
    Runs (start .planar) [.complete ⟨⟨0, 0, 0, 0⟩, "a"⟩ (.scalar (.symbol "x"))] s ∧ d.isLocked = true ∧
    s.askAll ⟨⟨0, 0, 0, 0⟩, "a"⟩ [.lock, .revise fun _ => .error "no value", .revise fun t => .ok t.neg,
      .unlock] =
      s.putCoefficient { d with tensor := some (passAll d.queue t), isLocked := false, queue := [] } := by
  obtain ⟨m, hm⟩ : ∃ m : Mention, m = ⟨⟨0, 0, 0, 0⟩, "a"⟩ := ⟨_, rfl⟩
  obtain ⟨s, hs⟩ : ∃ s, s = (start .planar).issue (.complete m (.scalar (.symbol "x"))) := ⟨_, rfl⟩
  obtain ⟨rs, hrs⟩ : ∃ rs : List Request, rs = [.lock, .revise fun _ => .error "no value",
    .revise fun t => .ok t.neg] := ⟨_, rfl⟩
  have hrun : Runs (start .planar) [.complete m (.scalar (.symbol "x"))] s := hs ▸ Runs.start.command _
  have hfound : (s.registry.find? m.key).any Coefficient.isFinished = true ∧
      ((s.askAll m rs).registry.find? m.key).any Coefficient.isLocked = true := by
    rw [hs, hrs, hm]
    decide +kernel
  obtain ⟨c, hc, hf⟩ := (Option.any_eq_true _ _).mp hfound.1
  obtain ⟨d, t, -, hd, -, -, hheld, -⟩ := queued_revisions_run_once hrun hc hf rs
  have hl : d.isLocked = true := by
    have hany := hfound.2
    rw [hd] at hany
    exact hany
  have hunlock := (hheld hl).2.2.1
  rw [hrs] at hunlock
  subst hm
  exact ⟨s, d, t, hrun, hl, hunlock⟩

end Session

end TensorEquations
