import TensorEquations.Expression.Interpreter

/-!
# Evaluation reports no syntax errors

A text is refused with a syntax error before any of its statements runs, and for no other reason than that it is no
program.

* `IsEvaluated` — outcomes that are no syntax errors; they stay such from one step to the next.
* `Builtin.apply_isEvaluated` — the outcomes of the built-in functions.
* `Expression.evaluate_isEvaluated`, `runStatements_isEvaluated` — **evaluation reports no syntax errors.**
* `Interpreter.evaluate_eq_unexpectedInput_iff` — **a syntax error means that the text is not parsed.**
-/

namespace TensorEquations

/-- An outcome that is no syntax error. -/
def IsEvaluated {α : Type} (r : Evaluation α) : Prop := ∀ location, r ≠ .error (.unexpectedInput location)

namespace IsEvaluated

variable {α β : Type}

theorem ok (x : α) : IsEvaluated (.ok x) := nofun

theorem evaluation (error : EvaluationError) : IsEvaluated (.error (.evaluation error) : Evaluation α) := nofun

theorem bind {r : Evaluation α} {next : α → Evaluation β} (h : IsEvaluated r) (hnext : ∀ x, IsEvaluated (next x)) :
    IsEvaluated (r >>= next) := by
  cases r with
  | ok x => exact hnext x
  | error e =>
    intro location heq
    exact h location (congrArg Except.error (Except.error.inj heq))

theorem mapError {ε : Type} {wrap : ε → ProgramError} (h : ∀ e location, wrap e ≠ .unexpectedInput location)
    (r : Except ε α) : IsEvaluated (r.mapError wrap) := by
  cases r with
  | ok x => exact ok x
  | error e => exact fun location heq => h e location (Except.error.inj heq)

theorem mapM {f : α → Evaluation β} (h : ∀ x, IsEvaluated (f x)) : ∀ xs : List α, IsEvaluated (xs.mapM f)
  | [] => ok []
  | x :: xs => by
    rw [List.mapM_cons]
    exact (h x).bind fun _ => (mapM h xs).bind fun _ => ok _

theorem foldlM {f : β → α → Evaluation β} (h : ∀ y x, IsEvaluated (f y x)) :
    ∀ (xs : List α) (y : β), IsEvaluated (xs.foldlM f y)
  | [], y => ok y
  | x :: xs, y => by
    rw [List.foldlM_cons]
    exact (h y x).bind fun _ => foldlM h xs _

end IsEvaluated

/-! ## Operations on values -/

section Operations

variable (a b : Value) (context : String)

theorem Value.ofShaped_isEvaluated (r : Except ShapeError Tensor) : IsEvaluated (Value.ofShaped r) :=
  .mapError nofun _

theorem Value.ofTensor_isEvaluated (r : Except TensorError Tensor) : IsEvaluated (Value.ofTensor r) :=
  .mapError (fun e location => by cases e <;> exact nofun) _

theorem Value.ofSystem_isEvaluated (r : Except SystemError Substitution) : IsEvaluated (Value.ofSystem r) :=
  .mapError nofun _

theorem Value.asTensor_isEvaluated : IsEvaluated (a.asTensor context) := by
  unfold asTensor
  split <;> exact nofun

theorem Value.asLabels_isEvaluated : IsEvaluated (a.asLabels context) := by
  unfold asLabels
  split <;> exact nofun

theorem Value.asSubstitution_isEvaluated : IsEvaluated (a.asSubstitution context) := by
  unfold asSubstitution
  split <;> exact nofun

theorem Value.add_isEvaluated : IsEvaluated (a.add b) := by
  unfold add
  split
  · exact nofun
  · exact ofShaped_isEvaluated _
  · exact nofun

theorem Value.neg_isEvaluated : IsEvaluated a.neg := by
  unfold neg
  split <;> exact nofun

theorem Value.mul_isEvaluated : IsEvaluated (a.mul b) := by
  unfold mul
  split
  · exact nofun
  · exact nofun
  · exact nofun
  · exact ofTensor_isEvaluated _
  · exact nofun

theorem Value.div_isEvaluated : IsEvaluated (a.div b) := by
  unfold div
  split
  · split
    · exact nofun
    · exact mul_isEvaluated _ _
  · exact nofun

theorem Operation.apply_isEvaluated (op : Operation) : IsEvaluated (op.apply a b) := by
  cases op with
  | add => exact a.add_isEvaluated b
  | sub => exact b.neg_isEvaluated.bind fun b => a.add_isEvaluated b
  | mul => exact a.mul_isEvaluated b
  | div => exact a.div_isEvaluated b

theorem Value.combine_isEvaluated {op : Value → Value → Evaluation Value} (h : ∀ a b, IsEvaluated (op a b)) :
    ∀ vs : List Value, IsEvaluated (Value.combine context op vs)
  | [] => nofun
  | v :: vs => .foldlM h vs v

end Operations

/-- No function reports a syntax error. -/
theorem Builtin.apply_isEvaluated (f : Builtin) (vs : List Value) : IsEvaluated (f.apply vs) := by
  have htensor := Value.asTensor_isEvaluated
  have hlabels := Value.asLabels_isEvaluated
  have hshaped := Value.ofShaped_isEvaluated
  unfold apply
  split
  · unfold solveHomogeneous
    split
    · exact Value.ofSystem_isEvaluated _
    · exact Value.ofSystem_isEvaluated _
    · exact nofun
  · exact (htensor _ _).bind fun _ => (hlabels _ _).bind fun _ => (hlabels _ _).bind fun _ => hshaped _
  · exact Value.combine_isEvaluated _ Value.add_isEvaluated _
  · exact Operation.apply_isEvaluated _ _ .sub
  · exact Value.combine_isEvaluated _ Value.mul_isEvaluated _
  · unfold scaleBy
    split
    · exact (htensor _ _).bind fun _ => nofun
    · exact nofun
  · exact (htensor _ _).bind fun _ => (hlabels _ _).bind fun _ => hshaped _
  · exact (htensor _ _).bind fun _ => (hlabels _ _).bind fun _ => hshaped _
  · exact (htensor _ _).bind fun _ => (IsEvaluated.mapM (fun v => hlabels v _) _).bind fun _ => hshaped _
  · exact (htensor _ _).bind fun _ => (hlabels _ _).bind fun _ => hshaped _
  · unfold substituteIn
    refine (Value.asSubstitution_isEvaluated _ _).bind fun _ => ?_
    split
    · exact .mapError nofun _
    · exact nofun
  · exact (IsEvaluated.mapM (fun v => v.asSubstitution_isEvaluated _) _).bind fun _ =>
      Value.ofSystem_isEvaluated _
  · exact nofun
  · exact nofun
  · exact nofun

theorem Builtin.call_isEvaluated (f : Builtin) (vs : List Value) : IsEvaluated (f.call vs) := by
  unfold call
  split
  · exact nofun
  · exact f.apply_isEvaluated vs

/-! ## Expressions and programs -/

mutual

/-- **Evaluation reports no syntax errors.** -/
theorem Expression.evaluate_isEvaluated (vs : Bindings) : ∀ e : Expression, IsEvaluated (e.evaluate vs)
  | .number n => by
    rw [evaluate, Numeral.evaluate]
    split <;> exact nofun
  | .name text place => by
    rw [evaluate]
    split <;> exact nofun
  | .labels ls => .ok _
  | .neg e => by
    rw [evaluate]
    exact (e.evaluate_isEvaluated vs).bind fun v => v.neg_isEvaluated
  | .binary op l r => by
    rw [evaluate]
    exact (l.evaluate_isEvaluated vs).bind fun a => (r.evaluate_isEvaluated vs).bind fun b =>
      Operation.apply_isEvaluated a b op
  | .call f place es => by
    rw [evaluate]
    refine (evaluateAll_isEvaluated vs es).bind fun values => ?_
    split
    · exact Builtin.call_isEvaluated _ values
    · exact nofun

theorem Expression.evaluateAll_isEvaluated (vs : Bindings) : ∀ es : List Expression,
    IsEvaluated (evaluateAll vs es)
  | [] => .ok _
  | e :: es => by
    rw [evaluateAll]
    exact (e.evaluate_isEvaluated vs).bind fun _ => (evaluateAll_isEvaluated vs es).bind fun _ => .ok _

end

theorem Statement.run_isEvaluated (vs : Bindings) (s : Statement) : IsEvaluated (s.run vs) := by
  cases s with
  | value e => exact (e.evaluate_isEvaluated vs).bind fun _ => .ok _
  | assign name e => exact (e.evaluate_isEvaluated vs).bind fun _ => .ok _

theorem runStatements_isEvaluated : ∀ (p : Program) (vs : Bindings) (value : Value),
    IsEvaluated (runStatements vs value p).1
  | [], _, _ => .ok _
  | s :: p, vs, value => by
    rw [runStatements]
    split
    · exact runStatements_isEvaluated p _ _
    · next e hrun =>
      intro location heq
      exact s.run_isEvaluated vs location (hrun.trans (congrArg Except.error (Except.error.inj heq)))

/-- A program is refused with a syntax error exactly if it is not parsed. -/
theorem Interpreter.evaluate_eq_unexpectedInput_iff (i : Interpreter) (source : String) (location : Text.Location) :
    (i.evaluate source).1 = .error (.unexpectedInput location) ↔ program source = .error location := by
  rw [evaluate]
  cases hprogram : program source with
  | error found => simp
  | ok statements =>
    have hrun := runStatements_isEvaluated statements i.bindings .nothing
    dsimp only
    split
    · exact ⟨nofun, nofun⟩
    · next e vs heq =>
      rw [heq] at hrun
      exact ⟨fun h => absurd h (hrun location), nofun⟩

end TensorEquations
