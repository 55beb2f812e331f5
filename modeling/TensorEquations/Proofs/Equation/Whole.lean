import TensorEquations.Equation.Solving
import TensorEquations.Proofs.Equation.Call
import TensorEquations.Proofs.Equation.Source
import TensorEquations.Proofs.Expression.Bracket

/-!
# The body of an equation as one expression

The body of an equation is put as text between the brackets of a call, and what is solved is the value of
the program that comes out.

* `isUncommented_body` — a body has no `//`, so the bracket behind it is not lost in a comment.
* `ParsedEquation.kinds_expression` — the tokens of the program are those of the body in their frame.
* `KeepsBracket` — a text that closes no bracket that it has not opened.
* `ParsedEquation.SolvesWhole`, `ParsedEquation.exists_solvesWhole` — **a program with a value is the system of the
  whole body if the body keeps the bracket around it.**
-/

namespace TensorEquations

/-! ## Bodies -/

/-- The tokens of a text without comments, with a bracket behind it. -/
theorem kindsIn_append_closeParen {cs rest : List Char} (h : IsUncommented cs) :
    kindsIn (cs ++ ')' :: rest) =
      (kindsIn cs).bind fun before => (kindsIn (')' :: rest)).map (before ++ ·) := by
  have hbracket : bare false (')' :: rest) = ')' :: bare false rest :=
    bare_plain (by decide) fun hp => absurd (List.cons_prefix_cons.mp hp).1 (by decide)
  rw [kindsIn, bare_append (by simp) h, kindsIn, kindsIn, hbracket]
  exact kindsFrom_append (isBreak_of_mark rfl) _ _ _

/-- The sizes that a tag writes are not negative. -/
theorem Means.isNatural {inner : List Char} {offset : Nat} {t : CoefficientTag} (h : Means inner offset t) :
    t.key.IsNatural := by
  obtain ⟨id, l, ld, r, rd, indices, -, -, rfl⟩ := h
  exact CoefficientKey.isNatural_canonical (by simp [BlockShape.toList, fieldSize])

/-- The call of a tag opens no comment. -/
theorem Means.isUncommented_call {inner : List Char} {offset : Nat} {t : CoefficientTag}
    (henclosed : IsEnclosed inner) (h : Means inner offset t) :
    IsUncommented (renameCall t.key t.indices).toList := by
  have hname : '/' ∉ t.key.name.toList :=
    (CoefficientKey.lexeme_name h.isNatural).not_mem (by decide) (by decide)
  have hlabels : '/' ∉ (labelSet t.key.labels).toList :=
    not_mem_labelSet (by decide) fun l hl => (t.key.lexeme_label l hl).not_mem (by decide) (by decide)
  have hindices : IsUncommented t.indices.toList := by
    obtain ⟨id, l, ld, r, rd, indices, hsplit, -, rfl⟩ := h
    rw [String.toList_ofList]
    exact fun hi => henclosed.2 (hi.trans ⟨_, [], by rw [List.append_nil, hsplit.joined]⟩)
  rw [toList_renameCall, String.toList_append]
  exact .append_cons (by decide) (.append_cons (by decide) (.cons (by decide)
    (.append_cons (by decide) (.cons (by decide) (.append_cons (by decide) (.of_not_mem List.not_mem_nil)
      hindices)) (.of_not_mem hlabels))) (.of_not_mem hname)) (.of_not_mem (by decide))

/-- A call ends with its bracket. -/
theorem exists_renameCall (k : CoefficientKey) (indices : String) :
    ∃ front, (renameCall k indices).toList = front ++ [')'] := by
  have hcall : renameCall k indices =
      "RenameIndices(" ++ k.name ++ ", " ++ labelSet k.labels ++ ", " ++ indices ++ ")" := rfl
  rw [hcall, String.toList_append]
  exact ⟨_, rfl⟩

/-- What a source is read as has no comment, and begins with a slash only if the source does. -/
theorem Reads.isUncommented {cs rest : List Char} {ss : List Segment} (h : Reads cs ss rest) :
    ∀ {offset : Nat} {ps : List Piece}, Renders offset ss ps → IsUncommented (ps.flatMap Piece.chars) ∧
      ('/' ∈ (ps.flatMap Piece.chars).head? → '/' ∈ cs.head?) := by
  induction h with
  | stop =>
    rintro offset _ ⟨⟩
    exact ⟨.of_not_mem List.not_mem_nil, nofun⟩
  | @plain c cs rest ss hcomment _ _ ih =>
    rintro offset _ (_ | h)
    rename_i ps
    obtain ⟨huncommented, hhead⟩ := ih h
    refine ⟨fun (hi : ['/', '/'] <:+: c :: ps.flatMap Piece.chars) => ?_, id⟩
    rcases List.infix_cons_iff.mp hi with hp | hi
    · -- a second slash would be the next character of the source
      obtain ⟨rfl, behind, hbehind⟩ := List.cons_prefix_cons.mp hp
      have hslash : '/' ∈ cs.head? := hhead (by rw [← hbehind]; rfl)
      cases cs with
      | nil => exact nomatch hslash
      | cons d cs =>
        obtain rfl : d = '/' := Option.some.inj hslash
        exact hcomment ⟨cs, rfl⟩
    · exact huncommented hi
  | tag henclosed _ ih =>
    rintro offset _ (_ | _ | ⟨hmeans, h⟩)
    rename_i t ps
    obtain ⟨huncommented, -⟩ := ih h
    have hcall := hmeans.isUncommented_call henclosed
    obtain ⟨front, hfront⟩ := exists_renameCall t.key t.indices
    rw [List.flatMap_cons, Piece.chars]
    refine ⟨?_, fun hslash => ?_⟩
    · rw [hfront] at hcall ⊢
      rw [List.append_assoc, List.singleton_append]
      exact .append_cons (by decide) huncommented fun hi => hcall (hi.trans (List.prefix_append _ _).isInfix)
    · rw [toList_renameCall] at hslash
      exact absurd (Option.some.inj hslash) (by decide)

/-- **A body has no comment.** -/
theorem isUncommented_body {code : String} {p : ParsedEquation} (h : parseEquation code = .ok p) :
    IsUncommented p.body.toList := by
  unfold parseEquation at h
  rcases isReadable 0 code.toList with ⟨ss, rest, ps, hreads, hend, hps⟩ | ⟨ss, bad, ps, e, n, hreads, hps, hbad⟩
  · rw [readPieces_of_renders hreads hend hps] at h
    obtain rfl := Except.ok.inj h
    rw [String.toList_ofList]
    exact (hreads.isUncommented hps).1
  · rw [readPieces_of_offends hreads hps hbad] at h
    cases h

/-! ## The program of an equation -/

namespace ParsedEquation

variable {p : ParsedEquation}

/-- The tokens around a body in its program. -/
def frame (ks : List TokenKind) : List TokenKind :=
  .name "subst" :: .equals :: .name "HomogeneousSystem" :: .openParen :: (ks ++ [.closeParen, .separator])

theorem toList_expression (p : ParsedEquation) : p.expression.toList = "subst".toList ++ ' ' :: '=' :: ' ' ::
    ("HomogeneousSystem".toList ++ '(' :: (p.body.toList ++ [')', ':'])) := by
  have hfront : "subst = HomogeneousSystem(".toList =
      "subst".toList ++ ' ' :: '=' :: ' ' :: ("HomogeneousSystem".toList ++ ['(']) := by decide
  have hback : "):".toList = [')', ':'] := by decide
  have hexpression : p.expression = "subst = HomogeneousSystem(" ++ p.body ++ "):" := rfl
  simp only [hexpression, String.toList_append, hfront, hback, List.append_assoc, List.cons_append, List.nil_append]

/-- **The tokens of the program** are those of the body in their frame. -/
theorem kinds_expression (h : IsUncommented p.body.toList) :
    (scan (Text.stripComments p.expression)).kinds? = (scan (Text.stripComments p.body)).kinds?.map frame := by
  have htarget : Lexeme "subst".toList (.name "subst") :=
    .of_name rfl (by decide) (List.all_iff_forall_prop.mp (by decide))
  have hfunction : Lexeme "HomogeneousSystem".toList (.name "HomogeneousSystem") :=
    .of_name rfl (by decide) (List.all_iff_forall_prop.mp (by decide))
  have hblank : IsBreak ' ' := isBreak_of_isGap rfl
  have hbracket : IsBreak '(' := isBreak_of_mark rfl
  have hend : kindsIn [')', ':'] = some [.closeParen, .separator] := by decide
  rw [kinds_stripComments, kinds_stripComments, toList_expression, ← kindsIn, ← kindsIn,
    kindsIn_name htarget ⟨hblank, by decide⟩, kindsIn_blank, kindsIn_mark rfl (by decide), kindsIn_blank,
    kindsIn_name hfunction ⟨hbracket, by decide⟩, kindsIn_mark rfl (by decide), kindsIn_append_closeParen h, hend]
  cases kindsIn p.body.toList <;> rfl

end ParsedEquation

/-! ## Bodies that keep their bracket -/

/-- Text that closes no bracket that it has not opened. -/
def KeepsBracket (text : String) : Prop :=
  (depthAfter 0 ((scan (Text.stripComments text)).tokens.map Token.kind)).isSome

instance (text : String) : Decidable (KeepsBracket text) := inferInstanceAs (Decidable (_ = true))

section Derivations

variable {text : String} {e : SumTree} {ks : List TokenKind}

/-- **An expression keeps the bracket around it.** -/
theorem IsDerivation.keepsBracket (h : IsDerivation text ⟨some (.expression e), []⟩) : KeepsBracket text := by
  have hscan : scan (Text.stripComments text) = ⟨e.tokens ++ [], none⟩ := (scan_eq_iff _ _).mpr h
  rw [KeepsBracket, hscan, List.append_nil, e.isBalanced 0]
  rfl

/-- Text with the tokens of an expression is that expression at other places. -/
theorem exists_expression (h : (scan (Text.stripComments text)).kinds? = some (e.tokens.map Token.kind)) :
    ∃ e' : SumTree, IsDerivation text ⟨some (.expression e'), []⟩ ∧ e'.tree.unplaced = e.tree.unplaced := by
  rw [Scan.kinds?] at h
  split at h
  · next hstop =>
    obtain ⟨e', htokens, htree⟩ := e.exists_moved (Option.some.inj h)
    refine ⟨e', (scan_eq_iff _ _).mp ?_, htree⟩
    show scan (Text.stripComments text) = ⟨e'.tokens ++ [], none⟩
    rw [List.append_nil, htokens, ← Option.isNone_iff_eq_none.mp hstop]
  · cases h

end Derivations

/-- A call of `HomogeneousSystem` that has a value has one argument. -/
theorem Expression.exists_argument {vs : Bindings} {place : Place} {es : List Expression} {v : Value}
    (h : (Expression.call "HomogeneousSystem" place es).evaluate vs = .ok v) : ∃ E, es = [E] := by
  have hfunction : Builtin.ofName? "HomogeneousSystem" = some .homogeneousSystem := by decide
  rw [Expression.evaluate, hfunction] at h
  obtain ⟨values, hvalues, hcall⟩ := bind_eq_ok h
  match es with
  | [] =>
    cases hvalues
    cases hcall
  | [E] => exact ⟨E, rfl⟩
  | E :: E' :: es =>
    obtain ⟨w, -, hvalues⟩ := bind_eq_ok hvalues
    obtain ⟨ws, hws, hvalues⟩ := bind_eq_ok hvalues
    obtain ⟨w', -, hws⟩ := bind_eq_ok hws
    obtain ⟨ws', -, hws⟩ := bind_eq_ok hws
    cases hws
    cases hvalues
    cases hcall

namespace ParsedEquation

variable {p : ParsedEquation}

/-- The body is one expression, and the program is the one assignment of its system. -/
structure SolvesWhole (p : ParsedEquation) (body : SumTree) : Prop where
  derivation : IsDerivation p.body ⟨some (.expression body), []⟩
  program : ∃ place E, Interpreter.program p.expression =
    .ok [.assign "subst" (.call "HomogeneousSystem" place [E])] ∧ E.unplaced = body.tree.unplaced

/-- Text in the brackets of the program is the arguments of its call, unless it closes the bracket. -/
theorem exists_arguments {ss : Program} (h : IsUncommented p.body.toList) (hkeeps : KeepsBracket p.body)
    (hprogram : Interpreter.program p.expression = .ok ss) : ∃ place es,
      ss = [.assign "subst" (.call "HomogeneousSystem" place (argumentTrees es))] ∧
        (scan (Text.stripComments p.body)).kinds? = some ((argumentTokens es).map Token.kind) := by
  obtain ⟨d, hd, rfl⟩ := (program_eq_ok_iff _ _).mp hprogram
  have hexpression : (scan (Text.stripComments p.expression)).kinds? = some (d.tokens.map Token.kind) := by
    rw [(scan_eq_iff _ _).mpr hd]
    rfl
  rw [kinds_expression h] at hexpression
  obtain ⟨ks, hbody, hframe⟩ := Option.map_eq_some_iff.mp hexpression
  have hopen : (depthAfter 0 ks).isSome := by
    rw [Scan.kinds?] at hbody
    split at hbody
    · exact Option.some.inj hbody ▸ hkeeps
    · cases hbody
  obtain ⟨place, es, hstatements, rfl⟩ := ProgramTree.exists_call hframe.symm hopen
  exact ⟨place, es, hstatements, hbody⟩

/-- **A program with a value is the system of the whole body** if the body keeps the bracket around it. -/
theorem exists_solvesWhole {code : String} (hparse : parseEquation code = .ok p) (hkeeps : KeepsBracket p.body)
    {vs : Bindings} {v : Value} (hvalue : ((Interpreter.start vs).evaluate p.expression).1 = .ok v) :
    ∃ body, p.SolvesWhole body := by
  cases hprogram : Interpreter.program p.expression with
  | error location =>
    rw [Interpreter.evaluate, hprogram] at hvalue
    cases hvalue
  | ok ss =>
    obtain ⟨place, es, rfl, hkinds⟩ := exists_arguments (isUncommented_body hparse) hkeeps hprogram
    obtain ⟨E, hE⟩ : ∃ E, argumentTrees es = [E] := by
      cases hcall : (Expression.call "HomogeneousSystem" place (argumentTrees es)).evaluate vs with
      | ok w => exact Expression.exists_argument hcall
      | error error =>
        simp only [Interpreter.evaluate, hprogram, Interpreter.start, runStatements, Statement.run, hcall] at hvalue
        cases hvalue
    rcases es with _ | e | ⟨e, comma, rest⟩
    · cases hE
    · obtain ⟨body, hbody, htree⟩ := exists_expression hkinds
      exact ⟨body, hbody, place, e.tree, hprogram, htree.symm⟩
    · obtain ⟨-, hrest⟩ := List.cons.inj hE
      exact absurd hrest rest.trees_ne_nil

end ParsedEquation

/-- An equation that is solved by its own program has a program with a value. -/
theorem Registry.exists_value_of_solve {r : Registry} {e : Equation} {s : Substitution} (hgiven : e.given = none)
    (hsolve : (r.solve e).2 = .ok s) : ∃ vs v, ((Interpreter.start vs).evaluate e.reading.expression).1 = .ok v := by
  unfold Registry.solve Registry.solveLocked Registry.evaluate at hsolve
  rw [hgiven] at hsolve
  refine ⟨(r.lockAll e.acquisition).bindings e, ?_⟩
  cases hvalue : ((Interpreter.start ((r.lockAll e.acquisition).bindings e)).evaluate e.reading.expression).1 with
  | ok v => exact ⟨v, rfl⟩
  | error error =>
    simp only [hvalue] at hsolve
    cases hsolve

end TensorEquations
