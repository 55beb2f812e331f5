import TensorEquations.Proofs.Equation.Whole
import TensorEquations.Proofs.Session.Run
import TensorEquations.Proofs.Session.Step

/-!
# Equations that are solved as a whole

* `ParsedEquation.IsSolvable` — some session solves an equation with this reading.
* `ParsedEquation.solvesWhole_of_keepsBracket` — **what is solved is the whole body as one expression if the body
  keeps the bracket around it; else the body is no expression.**
* `ParsedEquation.body_escapes` — a body that closes the bracket, runs a statement of its own and is solved.
-/

namespace TensorEquations

namespace ParsedEquation

variable {p : ParsedEquation}

/-- Some session solves an equation with this reading by its own program. -/
def IsSolvable (p : ParsedEquation) : Prop :=
  ∃ configuration cs t place e, Session.Runs (.start configuration) cs t ∧ t.equations[place]? = some e ∧
    e.reading = p ∧ e.given = none ∧ e.state.isWaiting = true ∧
      ((t.solve place).1.equations[place]?.any fun e => e.state.isSolved) = true

theorem IsSolvable.exists_value (h : p.IsSolvable) :
    ∃ vs v, ((Interpreter.start vs).evaluate p.expression).1 = .ok v := by
  obtain ⟨configuration, cs, t, place, e, -, he, rfl, hgiven, hwaiting, hsolved⟩ := h
  rcases Session.solve_waiting he hwaiting with ⟨s, hs, -⟩ | ⟨cause, error, -, events, heq⟩
  · exact Registry.exists_value_of_solve hgiven hs
  · obtain ⟨hplace, -⟩ := List.getElem?_eq_some_iff.mp he
    rw [heq, List.getElem?_set_self hplace] at hsolved
    cases hsolved

/-- **An equation that can be solved is solved as a whole exactly if its body keeps the bracket around it.** Then the
body is one expression and the program is the one assignment of its system; else the body is no expression. -/
theorem solvesWhole_of_keepsBracket {code : String} (hparse : parseEquation code = .ok p) (hsolvable : p.IsSolvable) :
    (KeepsBracket p.body → ∃ body, p.SolvesWhole body) ∧
      (¬ KeepsBracket p.body → ¬ ∃ body, IsDerivation p.body ⟨some (.expression body), []⟩) := by
  refine ⟨fun hkeeps => ?_, fun hescapes ⟨body, hbody⟩ => hescapes hbody.keepsBracket⟩
  obtain ⟨vs, v, hvalue⟩ := hsolvable.exists_value
  exact exists_solvesWhole hparse hkeeps hvalue

/-- A session with one scalar unknown `x` and an equation. -/
def withScalar (code : String) : Session :=
  [.completeGeneral ⟨⟨0, 0, 0, 0⟩, "x"⟩ "", .addEquation code].foldl Session.issue (.start .planar)

/-- What can be checked of the reading of an equation that is solved there. -/
theorem exists_solvable (code : String) (check : ParsedEquation → Bool)
    (h : (((withScalar code).equations[0]?.any fun e => e.given.isNone && e.state.isWaiting &&
        (parseEquation code).toOption = some e.reading && check e.reading) &&
      ((withScalar code).solve 0).1.equations[0]?.any fun e => e.state.isSolved) = true) :
    ∃ p, parseEquation code = .ok p ∧ p.IsSolvable ∧ check p = true := by
  obtain ⟨he, hsolved⟩ := (Bool.and_eq_true _ _).mp h
  obtain ⟨e, he, h⟩ := (Option.any_eq_true _ _).mp he
  simp only [Bool.and_eq_true, Option.isNone_iff_eq_none, decide_eq_true_eq] at h
  obtain ⟨⟨⟨hgiven, hwaiting⟩, hreading⟩, hcheck⟩ := h
  have hparse : parseEquation code = .ok e.reading := by
    cases hcode : parseEquation code with
    | ok p =>
      rw [hcode] at hreading
      exact congrArg _ (Option.some.inj hreading)
    | error error =>
      rw [hcode] at hreading
      cases hreading
  exact ⟨e.reading, hparse, ⟨_, _, _, 0, e, Session.Runs.start.issueAll _, he, rfl, hgiven, hwaiting, hsolved⟩, hcheck⟩

/-- An equation for one scalar is solved as a whole. -/
theorem solvesWhole_of_keepsBracket_scalar : ∃ p, parseEquation "#<x:0:0:0:0:\x7b\x7d> - 2" = .ok p ∧
    p.IsSolvable ∧ KeepsBracket p.body ∧ ∃ body, p.SolvesWhole body := by
  obtain ⟨p, hparse, hsolvable, hcheck⟩ := exists_solvable "#<x:0:0:0:0:\x7b\x7d> - 2"
    (fun p => decide (KeepsBracket p.body)) (by decide +kernel)
  have hkeeps : KeepsBracket p.body := of_decide_eq_true hcheck
  exact ⟨p, hparse, hsolvable, hkeeps, (solvesWhole_of_keepsBracket hparse hsolvable).1 hkeeps⟩

/-- **A body that closes the bracket.** Behind it stands a statement of its own; the equation is solved, and the
body is no program. -/
theorem body_escapes : ∃ p,
    parseEquation "#<x:0:0:0:0:\x7b\x7d> - 1) : HomogeneousSystem(#<x:0:0:0:0:\x7b\x7d> - 2" = .ok p ∧
      p.IsSolvable ∧ (Interpreter.program p.expression).toOption.map List.length = some 2 ∧
        ¬ ∃ d, IsDerivation p.body d := by
  obtain ⟨p, hparse, hsolvable, hcheck⟩ := exists_solvable
    "#<x:0:0:0:0:\x7b\x7d> - 1) : HomogeneousSystem(#<x:0:0:0:0:\x7b\x7d> - 2"
    (fun p => decide ((Interpreter.program p.expression).toOption.map List.length = some 2) &&
      !(Interpreter.program p.body).isOk) (by decide +kernel)
  simp only [Bool.and_eq_true, decide_eq_true_eq, Bool.not_eq_true'] at hcheck
  refine ⟨p, hparse, hsolvable, hcheck.1, fun ⟨d, hd⟩ => ?_⟩
  have hprogram := (program_eq_ok_iff _ d.statements).mpr ⟨d, hd, rfl⟩
  rw [hprogram] at hcheck
  exact nomatch hcheck.2

end ParsedEquation

end TensorEquations
