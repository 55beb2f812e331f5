import TensorEquations.Proofs.Expression.Printing

/-!
# Places and outcomes

Names keep the places at which they are written for messages only. Programs that are the same but for places leave
the same variables and have outcomes that are the same but for the places in messages.

* `ProgramError.unplaced` — an error with all places in its message at the beginning of a text.
* `Alike` — outcomes that are the same, places in messages aside.
* `Expression.evaluate_unplaced` — places do not change the value of an expression.
* `runStatements_alike` — **places change neither the outcome of a program nor the variables it leaves.**
-/

namespace TensorEquations

/-! ## Messages without places -/

/-- An error of an operation with the name in its message at the first place of a text. -/
def EvaluationError.unplaced : EvaluationError → EvaluationError
  | unknownName name _ => unknownName name ⟨1, 1⟩
  | unknownFunction function _ => unknownFunction function ⟨1, 1⟩
  | error => error

/-- An error of a program with the name in its message at the first place of a text. -/
def ProgramError.unplaced : ProgramError → ProgramError
  | evaluation error => evaluation error.unplaced
  | error => error

/-- Outcomes that are the same, places in messages aside. -/
def Alike {α : Type} (r r' : Evaluation α) : Prop :=
  r.mapError ProgramError.unplaced = r'.mapError ProgramError.unplaced

namespace Alike

variable {α β : Type} {r r' r'' : Evaluation α}

theorem refl (r : Evaluation α) : Alike r r := rfl

theorem symm (h : Alike r r') : Alike r' r := Eq.symm h

theorem trans (h : Alike r r') (h' : Alike r' r'') : Alike r r'' := Eq.trans h h'

theorem error {e e' : ProgramError} (h : e.unplaced = e'.unplaced) :
    Alike (.error e : Evaluation α) (.error e') := congrArg Except.error h

theorem eq_ok {x : α} (h : Alike (.ok x) r) : r = .ok x := by
  cases r with
  | ok y => exact (congrArg Except.ok (Except.ok.inj h)).symm
  | error e => exact nomatch h

theorem exists_error {e : ProgramError} (h : Alike (.error e) r) :
    ∃ e', r = .error e' ∧ e.unplaced = e'.unplaced := by
  cases r with
  | ok y => exact nomatch h
  | error e' => exact ⟨e', rfl, Except.error.inj h⟩

theorem bind {next next' : α → Evaluation β} (h : Alike r r') (hnext : ∀ x, Alike (next x) (next' x)) :
    Alike (r >>= next) (r' >>= next') := by
  cases r with
  | ok x =>
    obtain rfl := h.eq_ok
    exact hnext x
  | error e =>
    obtain ⟨e', rfl, he⟩ := h.exists_error
    exact .error he

end Alike

/-! ## Programs without places -/

mutual

/-- **Places do not change the value of an expression**, and of an error only its message. -/
theorem Expression.evaluate_unplaced (vs : Bindings) : ∀ e : Expression,
    Alike (e.evaluate vs) (e.unplaced.evaluate vs)
  | .number _ => .refl _
  | .name text place => by
    rw [unplaced, evaluate, evaluate]
    cases vs.lookup text with
    | some v => exact .refl _
    | none => exact .error rfl
  | .labels _ => .refl _
  | .neg e => by
    rw [unplaced, evaluate, evaluate]
    exact (e.evaluate_unplaced vs).bind fun _ => .refl _
  | .binary op l r => by
    rw [unplaced, evaluate, evaluate]
    exact (l.evaluate_unplaced vs).bind fun _ => (r.evaluate_unplaced vs).bind fun _ => .refl _
  | .call f place es => by
    rw [unplaced, evaluate, evaluate]
    refine (evaluateAll_unplaced vs es).bind fun values => ?_
    cases Builtin.ofName? f with
    | some _ => exact .refl _
    | none => exact .error rfl

theorem Expression.evaluateAll_unplaced (vs : Bindings) : ∀ es : List Expression,
    Alike (evaluateAll vs es) (evaluateAll vs (unplacedAll es))
  | [] => .refl _
  | e :: es => by
    rw [unplacedAll, evaluateAll, evaluateAll]
    exact (e.evaluate_unplaced vs).bind fun _ => (evaluateAll_unplaced vs es).bind fun _ => .refl _

end

theorem Statement.run_unplaced (vs : Bindings) : ∀ s : Statement, Alike (s.run vs) (s.unplaced.run vs)
  | .value e => (e.evaluate_unplaced vs).bind fun _ => .refl _
  | .assign _ e => (e.evaluate_unplaced vs).bind fun _ => .refl _

/-- **Programs that are the same but for places** leave the same variables and have outcomes alike. -/
theorem runStatements_alike : ∀ {p p' : Program} (vs : Bindings) (value : Value),
    p.map Statement.unplaced = p'.map Statement.unplaced →
    Alike (runStatements vs value p).1 (runStatements vs value p').1 ∧
      (runStatements vs value p).2 = (runStatements vs value p').2
  | [], p', _, _, h => by
    obtain rfl := List.map_eq_nil_iff.mp h.symm
    exact ⟨.refl _, rfl⟩
  | s :: p, p', vs, value, h => by
    obtain ⟨s', p', rfl, hs, hp⟩ := List.map_eq_cons_iff.mp h.symm
    have hrun : Alike (s.run vs) (s'.run vs) :=
      (s.run_unplaced vs).trans (hs ▸ (s'.run_unplaced vs).symm)
    rw [runStatements, runStatements]
    cases hs' : s.run vs with
    | ok r =>
      rw [hs'] at hrun
      rw [hrun.eq_ok]
      exact runStatements_alike r.2 r.1 hp.symm
    | error e =>
      rw [hs'] at hrun
      obtain ⟨e', he', hee'⟩ := hrun.exists_error
      rw [he']
      exact ⟨.error hee', rfl⟩

end TensorEquations
