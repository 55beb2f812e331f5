import TensorEquations.Proofs.Agreement
import TensorEquations.Proofs.Expression.Bracket
import TensorEquations.Proofs.Expression.Placement

/-!
# Programs one after the other

* `kinds_joined` — the tokens of two texts with a separator in a line of its own between them.
* `program_joined` — such a text is the program of the statements of both, places aside.
* `runStatements_append` — statements after others begin with the variables that those leave.
* `Completes`, `FailsWith` — statements that all have values; a program in which one has none.
* `Interpreter.evaluate_joined` — **two programs in one text do what they do one after the other.**
-/

namespace TensorEquations

/-! ## Texts -/

/-- The first text, a separator in a line of its own, and the second text. -/
def joined (p q : String) : String := p ++ "\n:\n" ++ q

/-- Comments are open up to the end of their line. -/
theorem bare_append_break {c : Char} (hc : Text.isLineBreak c) (rest : List Char) :
    ∀ (inside : Bool) (cs : List Char), bare inside (cs ++ c :: rest) = bare inside cs ++ '\n' :: bare false rest
  | inside, [] => by rw [List.nil_append, bare_break hc, bare, List.nil_append]
  | inside, d :: cs => by
    have hslash : ¬ '/' ∈ (c :: rest).head? := by
      rintro ⟨⟩
      exact absurd hc (by decide)
    have hcomment : ['/', '/'].isPrefixOf (d :: (cs ++ c :: rest)) = ['/', '/'].isPrefixOf (d :: cs) := by
      rw [Bool.eq_iff_iff, List.isPrefixOf_iff_prefix, List.isPrefixOf_iff_prefix, comment_prefix_append]
      exact or_iff_left fun h => hslash h.2.2
    have ih := fun inside => bare_append_break hc rest inside cs
    rw [List.cons_append, bare, bare, hcomment, ih, ih]
    split
    · rfl
    · split <;> rfl

/-- **The tokens of a joined text** are those of the first text, a separator, and those of the second text, whatever
comments the texts end with. -/
theorem kinds_joined (p q : String) : (scan (Text.stripComments (joined p q))).kinds? =
    (scan (Text.stripComments p)).kinds?.bind fun ks =>
      (scan (Text.stripComments q)).kinds?.map (ks ++ TokenKind.separator :: ·) := by
  have htext : (joined p q).toList = p.toList ++ '\n' :: ([':'] ++ '\n' :: q.toList) := by
    simp [joined]
  have hseparator : ∀ cs, kindsFrom none (':' :: cs) = (kindsFrom none cs).map (.separator :: ·) :=
    fun _ => (Lexeme.mark (c := ':') rfl).kindsFrom nofun
  have hline : bare false [':'] = [':'] := rfl
  rw [kinds_stripComments, kinds_stripComments, kinds_stripComments, htext, bare_append_break rfl,
    bare_append_break rfl, hline, kindsFrom_append_gap rfl, List.singleton_append, hseparator, kindsFrom_gap rfl]
  simp only [Option.map_map, Function.comp_def]

/-! ## Derivations -/

/-- The derivation of two programs with a separator between them. -/
def ProgramTree.join (d : ProgramTree) (place : Place) (d' : ProgramTree) : ProgramTree :=
  ⟨d.first, d.rest ++ (place, d'.first) :: d'.rest⟩

theorem ProgramTree.tokens_join (d : ProgramTree) (place : Place) (d' : ProgramTree) :
    (d.join place d').tokens = d.tokens ++ ⟨.separator, place⟩ :: d'.tokens := by
  simp only [join, tokens, separatedTokens, List.flatMap_append, List.flatMap_cons, List.append_assoc,
    List.cons_append]

theorem ProgramTree.statements_join (d : ProgramTree) (place : Place) (d' : ProgramTree) :
    (d.join place d').statements = d.statements ++ d'.statements := by
  simp only [join, statements, List.map_append, List.map_cons, ← List.cons_append, List.filterMap_append]

/-- The tokens of a derivation of a text. -/
theorem IsDerivation.kinds {source : String} {d : ProgramTree} (h : IsDerivation source d) :
    (scan (Text.stripComments source)).kinds? = some (d.tokens.map Token.kind) := by
  rw [(scan_eq_iff _ _).mpr h]
  rfl

/-- A text with tokens of the kinds of a derivation has a derivation that means the same. -/
theorem exists_derivation_of_kinds {source : String} {d : ProgramTree}
    (h : (scan (Text.stripComments source)).kinds? = some (d.tokens.map Token.kind)) :
    ∃ d', IsDerivation source d' ∧ d'.statements.map Statement.unplaced = d.statements.map Statement.unplaced := by
  obtain ⟨ts, hscan, hts⟩ := Scan.exists_of_kinds? h
  obtain ⟨d', rfl, hstatements⟩ := d.exists_moved hts
  exact ⟨d', (scan_eq_iff _ _).mp hscan, hstatements⟩

/-- **The program of a joined text** has the statements of both programs, places aside. -/
theorem program_joined {p q : String} {ps qs : Program} (hp : Interpreter.program p = .ok ps)
    (hq : Interpreter.program q = .ok qs) : ∃ rs, Interpreter.program (joined p q) = .ok rs ∧
      rs.map Statement.unplaced = (ps ++ qs).map Statement.unplaced := by
  obtain ⟨d, hd, rfl⟩ := (program_eq_ok_iff p ps).mp hp
  obtain ⟨d', hd', rfl⟩ := (program_eq_ok_iff q qs).mp hq
  have hkinds : (scan (Text.stripComments (joined p q))).kinds? =
      some ((d.join ⟨1, 1⟩ d').tokens.map Token.kind) := by
    rw [kinds_joined, hd.kinds, hd'.kinds, ProgramTree.tokens_join, List.map_append, List.map_cons]
    rfl
  obtain ⟨d'', hd'', hstatements⟩ := exists_derivation_of_kinds hkinds
  refine ⟨d''.statements, (program_eq_ok_iff _ _).mpr ⟨d'', hd'', rfl⟩, ?_⟩
  rw [hstatements, ProgramTree.statements_join]

/-! ## Runs -/

/-- Statements after others begin with the variables and the value that those leave; none of them is run if one of
those fails. -/
theorem runStatements_append : ∀ (p q : Program) (vs : Bindings) (value : Value),
    runStatements vs value (p ++ q) =
      match runStatements vs value p with
      | (.ok v, ws) => runStatements ws v q
      | (.error e, ws) => (.error e, ws)
  | [], _, _, _ => rfl
  | s :: p, q, vs, value => by
    rw [List.cons_append, runStatements, runStatements]
    cases s.run vs with
    | ok r => exact runStatements_append p q r.2 r.1
    | error e => rfl

/-- The value in front of the first statement is that of a program without statements only. -/
theorem runStatements_value (vs : Bindings) (v : Value) (q : Program) : runStatements vs v q =
    ((runStatements vs .nothing q).1.map fun w => if q.isEmpty then v else w, (runStatements vs .nothing q).2) := by
  cases q with
  | nil => rfl
  | cons s q =>
    rw [runStatements, runStatements, List.isEmpty_cons]
    have hsame : ∀ r : Evaluation Value × Bindings, (r.1.map fun w => if false = true then v else w, r.2) = r := by
      rintro ⟨_ | _, _⟩ <;> rfl
    rw [hsame]

/-- All statements of a program have values, and leave the variables as given. -/
inductive Completes : Bindings → Program → Bindings → Prop
  | nil (vs : Bindings) : Completes vs [] vs
  | value {vs ws : Bindings} {e : Expression} {v : Value} {p : Program} (hvalue : e.evaluate vs = .ok v)
      (h : Completes vs p ws) : Completes vs (.value e :: p) ws
  | assign {vs ws : Bindings} {name : String} {e : Expression} {v : Value} {p : Program}
      (hvalue : e.evaluate vs = .ok v) (h : Completes (vs.assign name v) p ws) : Completes vs (.assign name e :: p) ws

/-- A statement of a program fails, and those in front of it leave the variables as given. -/
def FailsWith (vs : Bindings) (p : Program) (e : ProgramError) (ws : Bindings) : Prop :=
  ∃ before s after, p = before ++ s :: after ∧ Completes vs before ws ∧ s.run ws = .error e

theorem Completes.cons {s : Statement} {vs us ws : Bindings} {v : Value} {p : Program} (hs : s.run vs = .ok (v, us))
    (h : Completes us p ws) : Completes vs (s :: p) ws := by
  cases s with
  | value e =>
    obtain ⟨w, hvalue, heq⟩ := bind_eq_ok hs
    obtain ⟨-, rfl⟩ := Prod.mk.inj (Except.ok.inj heq)
    exact .value hvalue h
  | assign name e =>
    obtain ⟨w, hvalue, heq⟩ := bind_eq_ok hs
    obtain ⟨-, rfl⟩ := Prod.mk.inj (Except.ok.inj heq)
    exact .assign hvalue h

/-- **A program fails at one of its statements** and keeps the assignments in front of it. -/
theorem failsWith_of_runStatements : ∀ {p : Program} {vs ws : Bindings} {value : Value} {e : ProgramError},
    runStatements vs value p = (.error e, ws) → FailsWith vs p e ws
  | [], _, _, _, _, h => nomatch (Prod.mk.inj h).1
  | s :: p, vs, ws, value, e, h => by
    rw [runStatements] at h
    cases hs : s.run vs with
    | ok r =>
      rw [hs] at h
      obtain ⟨before, s', after, rfl, hbefore, hfails⟩ := failsWith_of_runStatements h
      exact ⟨s :: before, s', after, rfl, .cons hs hbefore, hfails⟩
    | error e' =>
      rw [hs] at h
      obtain ⟨he, rfl⟩ := Prod.mk.inj h
      obtain rfl := Except.error.inj he
      exact ⟨[], s, p, rfl, .nil vs, hs⟩

/-! ## Interpreters -/

namespace Interpreter

/-- Two texts one after the other, the second one only if the first one has a value; the values are those of both. -/
def evaluateBoth (i : Interpreter) (p q : String) : Evaluation (Value × Value) × Interpreter :=
  match i.evaluate p with
  | (.ok v, j) => ((j.evaluate q).1.map (v, ·), (j.evaluate q).2)
  | (.error e, j) => (.error e, j)

/-- The value of the interpreter is that of the text, and the earlier one if the text has none. -/
theorem current_evaluate (i : Interpreter) (source : String) :
    (∀ v, (i.evaluate source).1 = .ok v → (i.evaluate source).2.current = v) ∧
    ∀ e, (i.evaluate source).1 = .error e → (i.evaluate source).2.current = i.current := by
  rw [evaluate]
  split
  · exact ⟨fun _ h => (by cases h), fun _ _ => rfl⟩
  · split
    · exact ⟨fun _ h => Except.ok.inj h, fun _ h => (by cases h)⟩
    · exact ⟨fun _ h => (by cases h), fun _ _ => rfl⟩

section Outcomes

variable {i : Interpreter} {source : String} {p : Program}

theorem evaluate_eq_runStatements (i : Interpreter) (h : program source = .ok p) :
    (i.evaluate source).1 = (runStatements i.bindings .nothing p).1 ∧
      (i.evaluate source).2.bindings = (runStatements i.bindings .nothing p).2 := by
  rw [evaluate, h]
  dsimp only
  rcases runStatements i.bindings .nothing p with ⟨_ | _, _⟩ <;> exact ⟨rfl, rfl⟩

/-- One text after the other: the statements of both, with the value of the second text, or that of the first one if
the second one has no statement. -/
theorem evaluateBoth_eq_runStatements {q : String} {ps qs : Program} (hp : program source = .ok ps)
    (hq : program q = .ok qs) :
    ((i.evaluateBoth source q).1.map fun r => if qs.isEmpty then r.1 else r.2) =
        (runStatements i.bindings .nothing (ps ++ qs)).1 ∧
      (i.evaluateBoth source q).2.bindings = (runStatements i.bindings .nothing (ps ++ qs)).2 := by
  obtain ⟨hvalue, hbindings⟩ := i.evaluate_eq_runStatements hp
  rw [runStatements_append, evaluateBoth]
  generalize i.evaluate source = r at hvalue hbindings ⊢
  generalize runStatements i.bindings .nothing ps = r' at hvalue hbindings ⊢
  obtain ⟨outcome, j⟩ := r
  obtain ⟨_, _⟩ := r'
  obtain rfl := hvalue
  obtain rfl := hbindings
  cases outcome with
  | error e => exact ⟨rfl, rfl⟩
  | ok v =>
    obtain ⟨hvalue, hbindings⟩ := j.evaluate_eq_runStatements hq
    dsimp only
    rw [runStatements_value, ← hvalue, ← hbindings]
    refine ⟨?_, rfl⟩
    cases (j.evaluate q).1 <;> rfl

end Outcomes

/-- **Programs compose.** Two programs in one text, a separator in a line of its own between them, leave the variables
that they leave one after the other, the second one being run if the first one has a value. The outcome is that of the
second one, or of the first one if that fails or the second one has no statement; places in messages are those in the
joined text. If a statement fails, the assignments in front of it are kept, and so is the earlier value of the
interpreter. -/
theorem evaluate_joined (i : Interpreter) {p q : String} {ps qs : Program} (hp : program p = .ok ps)
    (hq : program q = .ok qs) :
    (i.evaluate (joined p q)).2.bindings = (i.evaluateBoth p q).2.bindings ∧
    Alike (i.evaluate (joined p q)).1
      ((i.evaluateBoth p q).1.map fun r => if qs.isEmpty then r.1 else r.2) ∧
    (∀ v, (i.evaluate (joined p q)).1 = .ok v → (i.evaluate (joined p q)).2.current = v) ∧
    ∃ rs, program (joined p q) = .ok rs ∧ rs.map Statement.unplaced = (ps ++ qs).map Statement.unplaced ∧
      ∀ e, (i.evaluate (joined p q)).1 = .error e → (i.evaluate (joined p q)).2.current = i.current ∧
        FailsWith i.bindings rs e (i.evaluate (joined p q)).2.bindings := by
  obtain ⟨rs, hrs, hstatements⟩ := program_joined hp hq
  obtain ⟨hcurrent, hkept⟩ := i.current_evaluate (joined p q)
  obtain ⟨houtcome, hbindings⟩ := i.evaluate_eq_runStatements hrs
  obtain ⟨hboth, hleft⟩ := evaluateBoth_eq_runStatements (i := i) hp hq
  obtain ⟨halike, hsame⟩ := runStatements_alike i.bindings .nothing hstatements
  refine ⟨?_, ?_, hcurrent, rs, hrs, hstatements, fun e he => ⟨hkept e he, ?_⟩⟩
  · rw [hbindings, hleft, hsame]
  · rw [houtcome, hboth]
    exact halike
  · exact failsWith_of_runStatements (Prod.ext (houtcome.symm.trans he) hbindings.symm)

/-- The second text fails at its second statement: the message has the place in the joined text. -/
theorem evaluate_joined_unknownName :
    let i : Interpreter := ⟨[("x", .labels ["i"])], .labels ["j"]⟩
    let ps : Program := [.assign "x" (.labels ["a", "b"])]
    let qs : Program := [.assign "y" (.name "x" ⟨1, 5⟩), .assign "z" (.name "u" ⟨1, 12⟩), .assign "x" (.labels ["c"])]
    let both := i.evaluateBoth "x = \x7ba b\x7d; // two" "y = x; z = u; x = \x7bc\x7d"
    let one := i.evaluate (joined "x = \x7ba b\x7d; // two" "y = x; z = u; x = \x7bc\x7d")
    program "x = \x7ba b\x7d; // two" = .ok ps ∧ program "y = x; z = u; x = \x7bc\x7d" = .ok qs ∧
    both.1 = .error (.evaluation (.unknownName "u" ⟨1, 12⟩)) ∧
    one.1 = .error (.evaluation (.unknownName "u" ⟨3, 12⟩)) ∧
    one.2 = ⟨[("x", .labels ["a", "b"]), ("y", .labels ["a", "b"])], .labels ["j"]⟩ ∧
    one.2.bindings = both.2.bindings ∧ Alike one.1 (both.1.map fun r => if qs.isEmpty then r.1 else r.2) := by
  intro i ps qs both one
  have hp : program "x = \x7ba b\x7d; // two" = .ok ps := rfl
  have hq : program "y = x; z = u; x = \x7bc\x7d" = .ok qs := rfl
  obtain ⟨hbindings, houtcome, -⟩ := i.evaluate_joined hp hq
  exact ⟨hp, hq, rfl, rfl, rfl, hbindings, houtcome⟩

end Interpreter

end TensorEquations
