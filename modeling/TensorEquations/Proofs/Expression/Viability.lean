import TensorEquations.Proofs.Expression.Parsing

/-!
# Beginnings of programs

The parser has read no further than programs go: what it has read begins some program, and the first token that
does not fit begins none with it.

* `IsViable` — tokens that some program begins with.
* `Opens.complete` — whatever is unfinished can be completed.
* `ParserState.Follows.isViable` — **the tokens that lead to a state begin a program.**
* `isViable_iff` — **the parser reads exactly the beginnings of programs.**
* `exists_of_runTokens_error`, `exists_of_parseTokens_error` — **where the parser fails**: at the first token that
  goes on with no program, or at the last token of a text that ends too early.
-/

namespace TensorEquations

/-- Tokens that some program begins with. -/
def IsViable (ts : List Token) : Prop := ∃ us, ∃ d : ProgramTree, d.tokens = ts ++ us

theorem IsViable.of_append {ts us : List Token} (h : IsViable (ts ++ us)) : IsViable ts := by
  obtain ⟨vs, d, hd⟩ := h
  exact ⟨us ++ vs, d, by rw [hd, List.append_assoc]⟩

/-! ## Completing what is unfinished -/

/-- Tokens that some sum begins with. -/
def BeginsSum (ts : List Token) : Prop := ∃ us, ∃ e : SumTree, e.tokens = ts ++ us

theorem BeginsSum.of_append {ts : List Token} (us : List Token) (h : BeginsSum (ts ++ us)) : BeginsSum ts := by
  obtain ⟨vs, e, he⟩ := h
  exact ⟨us ++ vs, e, by rw [he, List.append_assoc]⟩

/-- **Unfinished parts can be completed**, with whatever they wait for. -/
theorem Opens.complete {n : Nat} {frames : List Frame} {ts : List Token} (h : Opens n frames ts) :
    (n = 1 → ∀ e : SumTree, BeginsSum (ts ++ e.tokens)) ∧
    (n = 2 → ∀ p : ProductTree, BeginsSum (ts ++ p.tokens)) ∧
    (n = 3 → ∀ u : UnaryTree, BeginsSum (ts ++ u.tokens)) := by
  -- each part is completed to an operand of the part around it
  induction h with
  | nothing => exact ⟨fun _ e => ⟨[], e, by simp⟩, nofun, nofun⟩
  | @paren frames ts _ place ih =>
    refine ⟨fun _ e => ?_, nofun, nofun⟩
    have h := ih.2.2 rfl (.atom (.paren place e place))
    rw [UnaryTree.tokens, AtomTree.tokens] at h
    refine BeginsSum.of_append [⟨.closeParen, place⟩] ?_
    simpa using h
  | @call frames ts _ f opening before ih =>
    refine ⟨fun _ e => ?_, nofun, nofun⟩
    have h := ih.2.2 rfl (.atom (.callWith f opening (before.complete e) opening))
    rw [UnaryTree.tokens, AtomTree.tokens, before.tokens_complete] at h
    refine BeginsSum.of_append [⟨.closeParen, opening⟩] ?_
    simpa using h
  | sum _ ih => exact ⟨nofun, fun _ p => ih.1 rfl (.product p), nofun⟩
  | inSum _ l hop place ih =>
    refine ⟨nofun, fun _ p => ?_, nofun⟩
    have h := ih.1 rfl (.binary l _ hop place p)
    rw [SumTree.tokens] at h
    simpa using h
  | product _ ih => exact ⟨nofun, nofun, fun _ u => ih.2.1 rfl (.unary u)⟩
  | inProduct _ l hop place ih =>
    refine ⟨nofun, nofun, fun _ u => ?_⟩
    have h := ih.2.1 rfl (.binary l _ hop place u)
    rw [ProductTree.tokens] at h
    simpa using h
  | neg _ place ih =>
    refine ⟨nofun, nofun, fun _ u => ?_⟩
    have h := ih.2.2 rfl (.neg place u)
    rw [UnaryTree.tokens] at h
    simpa using h
  | pos _ place ih =>
    refine ⟨nofun, nofun, fun _ u => ?_⟩
    have h := ih.2.2 rfl (.pos place u)
    rw [UnaryTree.tokens] at h
    simpa using h

theorem Opens.beginsSum {frames : List Frame} {ts : List Token} (h : Opens 3 frames ts) (a : AtomTree) :
    BeginsSum (ts ++ a.tokens) := h.complete.2.2 rfl (.atom a)

/-- What a state shows behind its target begins a sum, or it is nothing. -/
theorem ParserState.Shows.beginsSum {s : ParserState} {ts : List Token} (h : s.Shows ts) :
    (s.target = none ∧ ts = []) ∨ BeginsSum ts := by
  have place : Place := ⟨1, 1⟩
  cases hmode : s.mode with
  | statement =>
    simp only [Shows, hmode] at h
    exact .inl ⟨h.1, h.2.2⟩
  | operand =>
    simp only [Shows, hmode] at h
    exact .inr ((h.beginsSum (.number ⟨['0'], none⟩ place)).of_append _)
  | arguments =>
    simp only [Shows, hmode] at h
    obtain ⟨f, opening, frames, ts, -, hopens, rfl⟩ := h
    refine .inr (BeginsSum.of_append [⟨.closeParen, place⟩] ?_)
    have h := hopens.beginsSum (.call f opening place)
    rw [AtomTree.tokens] at h
    simpa using h
  | named text namePlace first =>
    simp only [Shows, hmode] at h
    obtain ⟨ts, hopens, rfl, -⟩ := h
    exact .inr (hopens.beginsSum (.name ⟨text, namePlace⟩))
  | labels ls =>
    simp only [Shows, hmode] at h
    obtain ⟨opening, names, ts, hopens, -, rfl⟩ := h
    refine .inr (BeginsSum.of_append [⟨.closeBrace, place⟩] ?_)
    have h := hopens.beginsSum (.labels opening names place)
    rw [AtomTree.tokens] at h
    simpa using h
  | after e =>
    simp only [Shows, hmode] at h
    obtain ⟨a, ts, hopens, -, rfl⟩ := h
    exact .inr (hopens.beginsSum a)

/-- **The tokens that lead to a state begin a program.** -/
theorem ParserState.Follows.isViable {s : ParserState} {ts : List Token} (h : s.Follows ts) : IsViable ts := by
  obtain ⟨before, target, rest, rfl, -, htarget, hshows⟩ := h
  rcases hshows.beginsSum with ⟨hnone, rfl⟩ | ⟨us, e, he⟩
  · rw [hnone] at htarget
    obtain rfl := htarget.eq_nil
    refine ⟨[], .ofList before none, ?_⟩
    rw [ProgramTree.tokens_ofList]
    simp [optionalTokens]
  · obtain ⟨st, hst, -⟩ := exists_statement htarget e
    refine ⟨us, .ofList before (some st), ?_⟩
    rw [ProgramTree.tokens_ofList, optionalTokens, Option.map_some, Option.getD_some, hst, he]
    simp only [List.append_assoc]

/-! ## Where the parser fails -/

theorem isViable_of_runTokens {s : ParserState} {ts : List Token} (h : runTokens .initial ts = .ok s) :
    IsViable ts :=
  ParserState.Follows.isViable (runTokens_follows [] ts ParserState.follows_initial h)

/-- Programs and their beginnings are read without an error. -/
theorem IsViable.runTokens {ts : List Token} (h : IsViable ts) : ∃ s, runTokens .initial ts = .ok s := by
  obtain ⟨us, d, hd⟩ := h
  have hparse := d.parseTokens
  rw [hd, parseTokens, ParserState.runTokens_append] at hparse
  cases hrun : TensorEquations.runTokens .initial ts with
  | ok s => exact ⟨s, rfl⟩
  | error place =>
    rw [hrun] at hparse
    cases hparse

/-- **The parser reads exactly the beginnings of programs.** -/
theorem isViable_iff (ts : List Token) : IsViable ts ↔ ∃ s, runTokens .initial ts = .ok s :=
  ⟨IsViable.runTokens, fun ⟨_, h⟩ => isViable_of_runTokens h⟩

/-- Reading fails at the first token that does not fit. -/
theorem runTokens_eq_error : ∀ {ts : List Token} {s : ParserState} {place : Place},
    runTokens s ts = .error place → ∃ before t after s', ts = before ++ t :: after ∧
      runTokens s before = .ok s' ∧ s'.next t = none ∧ t.place = place
  | [], _, _, h => by cases h
  | t :: ts, s, place, h => by
    rw [runTokens] at h
    split at h
    · next s' hnext =>
      obtain ⟨before, u, after, s'', rfl, hrun, hnone, hplace⟩ := runTokens_eq_error h
      refine ⟨t :: before, u, after, s'', rfl, ?_, hnone, hplace⟩
      rw [ParserState.runTokens_cons hnext, hrun]
    · next hnext => exact ⟨[], t, ts, s, rfl, rfl, hnext, Except.error.inj h⟩

/-- **The parser fails at the first token that goes on with no program.** -/
theorem exists_of_runTokens_error {ts : List Token} {place : Place} (h : runTokens .initial ts = .error place) :
    ∃ before t after, ts = before ++ t :: after ∧ t.place = place ∧ IsViable before ∧
      ¬ IsViable (before ++ [t]) := by
  obtain ⟨before, t, after, s, rfl, hrun, hnone, hplace⟩ := runTokens_eq_error h
  refine ⟨before, t, after, rfl, hplace, isViable_of_runTokens hrun, fun hviable => ?_⟩
  obtain ⟨s', hrun'⟩ := hviable.runTokens
  rw [ParserState.runTokens_of_eq hrun, runTokens, hnone] at hrun'
  cases hrun'

/-- **The parser fails at such a token, or at the last one of tokens that end too early**: they begin a program
and are none. -/
theorem exists_of_parseTokens_error {ts : List Token} {place : Place} (h : parseTokens ts = .error place) :
    ∃ before t after, ts = before ++ t :: after ∧ t.place = place ∧ IsViable before ∧
      (¬ IsViable (before ++ [t]) ∨
        (after = [] ∧ IsViable (before ++ [t]) ∧ ¬ ∃ d : ProgramTree, d.tokens = before ++ [t])) := by
  rw [parseTokens] at h
  cases hrun : runTokens .initial ts with
  | error failed =>
    rw [hrun] at h
    obtain rfl := Except.error.inj h
    obtain ⟨before, t, after, hts, hplace, hviable, hnot⟩ := exists_of_runTokens_error hrun
    exact ⟨before, t, after, hts, hplace, hviable, .inl hnot⟩
  | ok s =>
    rw [hrun] at h
    cases hfinish : s.finish with
    | some p => simp [bind, Except.bind, hfinish, pure, Except.pure] at h
    | none =>
      simp only [bind, Except.bind, hfinish, throw, throwThe, MonadExceptOf.throw, Except.error.injEq] at h
      rcases List.eq_nil_or_concat ts with rfl | ⟨before, t, rfl⟩
      · cases hrun
        cases hfinish
      · rw [List.concat_eq_append] at h hrun ⊢
        rw [List.getLast?_concat, Option.map_some, Option.getD_some] at h
        have hviable := isViable_of_runTokens hrun
        refine ⟨before, t, [], rfl, h, hviable.of_append, .inr ⟨rfl, hviable, ?_⟩⟩
        rintro ⟨d, hd⟩
        have hparse := d.parseTokens
        rw [hd, parseTokens, hrun] at hparse
        simp [bind, Except.bind, hfinish, throw, throwThe, MonadExceptOf.throw] at hparse

end TensorEquations
