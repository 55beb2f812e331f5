import TensorEquations.Proofs.Expression.Comment
import TensorEquations.Proofs.Expression.Outcome
import TensorEquations.Proofs.Expression.Viability

/-!
# Where syntax errors are reported

A text that is no program is refused at the first token that goes on with no program, at a character that starts no
token, or at the last token of a text that ends too early.

* `Begins` — the tokens at the beginning of a text, read with the rest of it in sight.
* `Scanned.split`, `Scanned.stopped` — each token, and the character at which scanning stops, stands behind the
  tokens in front of it.
* `splitLines_at` — the line and the column of a character.
* `Interpreter.syntax_error_position` — **what is known of the position of a syntax error.**
-/

namespace TensorEquations

/-! ## The tokens in front of a position -/

/-- A text from a place on begins with some tokens, and from another place on the rest follows. Each token is as
long as it can be in the whole text. -/
inductive Begins : Place → List Char → List Token → Place → List Char → Prop
  | here (place : Place) (cs : List Char) : Begins place cs [] place cs
  | gap {place place' : Place} {c : Char} {cs rest : List Char} {ts : List Token} (hgap : isGap c)
      (h : Begins (place.after c) cs ts place' rest) : Begins place (c :: cs) ts place' rest
  | token {place place' : Place} {w cs rest : List Char} {kind : TokenKind} {ts : List Token}
      (hlexeme : Lexeme w kind) (hlongest : ∀ v kind', Lexeme v kind' → v <+: w ++ cs → v.length ≤ w.length)
      (h : Begins (place.afterAll w) cs ts place' rest) :
      Begins place (w ++ cs) (⟨kind, place⟩ :: ts) place' rest

/-- A token stands at the beginning of a text. -/
def StartsToken (t : Token) (cs : List Char) : Prop :=
  ∃ w rest, cs = w ++ rest ∧ Lexeme w t.kind ∧ ∀ v kind, Lexeme v kind → v <+: cs → v.length ≤ w.length

/-- No token stands at the beginning of a text. -/
def StartsNone (cs : List Char) : Prop := ∀ w kind, Lexeme w kind → ¬ w <+: cs

section Positions

variable {place place' : Place} {cs rest : List Char} {s : Scan}

/-- The rest of a text is the rest, and its place the one behind all that is in front of it. -/
theorem Begins.exists_append {ts : List Token} (h : Begins place cs ts place' rest) :
    ∃ front, cs = front ++ rest ∧ place' = place.afterAll front := by
  induction h with
  | here place cs => exact ⟨[], rfl, rfl⟩
  | @gap _ _ c _ _ _ _ _ ih =>
    obtain ⟨front, rfl, hplace⟩ := ih
    exact ⟨c :: front, rfl, hplace⟩
  | @token _ _ w _ _ _ _ _ _ _ ih =>
    obtain ⟨front, rfl, hplace⟩ := ih
    exact ⟨w ++ front, (List.append_assoc w front _).symm, by rw [hplace, Place.afterAll_append]⟩

/-- **Each token stands behind the tokens in front of it.** -/
theorem Scanned.split (h : Scanned place cs s) {before after : List Token} {t : Token}
    (hts : s.tokens = before ++ t :: after) : ∃ rest, Begins place cs before t.place rest ∧ StartsToken t rest := by
  induction h generalizing before with
  | nil => exact absurd hts (by simp)
  | stop => exact absurd hts (by simp)
  | gap hgap _ ih =>
    obtain ⟨rest, hbegins, hstarts⟩ := ih hts
    exact ⟨rest, .gap hgap hbegins, hstarts⟩
  | @token place w rest kind s hlexeme hlongest _ ih =>
    cases before with
    | nil =>
      obtain ⟨rfl, -⟩ := List.cons.inj hts
      exact ⟨w ++ rest, .here _ _, w, rest, rfl, hlexeme, hlongest⟩
    | cons u before =>
      obtain ⟨rfl, hlater⟩ := List.cons.inj hts
      obtain ⟨rest', hbegins, hstarts⟩ := ih hlater
      exact ⟨rest', .token hlexeme hlongest hbegins, hstarts⟩

/-- **Scanning stops behind all tokens that it finds**, at a character that is no gap and starts no token. -/
theorem Scanned.stopped (h : Scanned place cs s) (hstop : s.stop = some place') :
    ∃ c rest, Begins place cs s.tokens place' (c :: rest) ∧ isGap c = false ∧ StartsNone (c :: rest) := by
  induction h with
  | nil => exact nomatch hstop
  | gap hgap _ ih =>
    obtain ⟨c, rest, hbegins, hnone⟩ := ih hstop
    exact ⟨c, rest, .gap hgap hbegins, hnone⟩
  | token hlexeme hlongest _ ih =>
    obtain ⟨c, rest, hbegins, hnone⟩ := ih hstop
    exact ⟨c, rest, .token hlexeme hlongest hbegins, hnone⟩
  | stop hgap hnone =>
    obtain rfl := Option.some.inj hstop
    exact ⟨_, _, .here _ _, hgap, hnone⟩

/-- A token begins with no gap. -/
theorem StartsToken.exists_cons {t : Token} (h : StartsToken t cs) : ∃ c rest, cs = c :: rest ∧ isGap c = false := by
  obtain ⟨w, rest, rfl, hlexeme, -⟩ := h
  rcases Pending.Holds.of_lexeme hlexeme with ⟨c, rfl, hmark⟩ | ⟨p, hp, -⟩
  · exact ⟨c, rest, rfl, (mark_alone c (mem_marks hmark)).1⟩
  · obtain ⟨c, w, rfl⟩ := List.exists_cons_of_ne_nil hp.ne_nil
    obtain ⟨q, hq⟩ := Pending.Holds.of_append (w := [c]) hp (List.cons_ne_nil _ _)
    rcases Pending.Holds.last (w := []) hq with ⟨-, hstart⟩ | ⟨_, hnil, -⟩
    · exact ⟨c, w ++ rest, rfl, (not_gap_of_start hstart).1⟩
    · exact absurd rfl hnil.ne_nil

end Positions

/-! ## Lines and columns -/

namespace Text

/-- A text of which the lines end in `\n` only. -/
def IsUnified (cs : List Char) : Prop := ∀ c ∈ cs, isLineBreak c → c = '\n'

theorem splitLinesFrom_plain {c : Char} (hc : ¬ isLineBreak c) (line cs : List Char) :
    splitLinesFrom line (c :: cs) = splitLinesFrom (c :: line) cs := by
  rw [splitLinesFrom.eq_def]
  split
  · rename_i heq
    cases heq
  · rename_i heq
    obtain rfl := (List.cons.inj heq).1
    exact absurd rfl hc
  · rename_i heq
    cases heq
    rw [if_neg hc]

theorem splitLinesFrom_newline (line cs : List Char) :
    splitLinesFrom line ('\n' :: cs) = line.reverse :: splitLinesFrom [] cs := by
  rw [splitLinesFrom.eq_def]
  rfl

/-- The first line goes on up to a line break. -/
theorem exists_first_line : ∀ {cs line : List Char}, IsUnified cs → line ≠ [] →
    ∃ l lines, splitLinesFrom line cs = (line.reverse ++ l) :: lines ∧ l <+: cs
  | [], line, _, hline => by
    refine ⟨[], [], ?_, List.prefix_rfl⟩
    rw [splitLinesFrom, List.append_nil, if_neg (by simpa using hline)]
  | c :: cs, line, hcs, hline => by
    obtain ⟨hc, hcs⟩ := List.forall_mem_cons.mp hcs
    by_cases hbreak : isLineBreak c
    · obtain rfl := hc hbreak
      exact ⟨[], splitLinesFrom [] cs, by rw [splitLinesFrom_newline, List.append_nil], List.nil_prefix⟩
    · obtain ⟨l, lines, hlines, hbegins⟩ := exists_first_line hcs (List.cons_ne_nil c line)
      refine ⟨c :: l, lines, ?_, List.cons_prefix_cons.mpr ⟨rfl, hbegins⟩⟩
      rw [splitLinesFrom_plain hbreak, hlines, List.reverse_cons, List.append_assoc, List.singleton_append]

end Text

open Text (IsUnified splitLinesFrom)

/-- **The line of a character**, as it is counted from place to place, is the one that it stands on, and the column
is where the rest of the text begins in it. `line` is the reversed beginning of the first line. -/
theorem splitLinesFrom_at {c : Char} {rest : List Char} (hc : c ≠ '\n') : ∀ (front line : List Char) (n : Nat),
    IsUnified (front ++ c :: rest) → ∃ k l column, Place.afterAll ⟨n, line.length + 1⟩ front = ⟨n + k, column + 1⟩ ∧
      (splitLinesFrom line (front ++ c :: rest))[k]? = some l ∧ column < l.length ∧ l.drop column <+: c :: rest
  | [], line, n, h => by
    have hbreak : ¬ Text.isLineBreak c := fun hbreak => hc (h c List.mem_cons_self hbreak)
    obtain ⟨l, lines, hlines, hbegins⟩ :=
      Text.exists_first_line (List.forall_mem_cons.mp h).2 (List.cons_ne_nil c line)
    rw [List.reverse_cons, List.append_assoc, List.singleton_append] at hlines
    refine ⟨0, line.reverse ++ c :: l, line.length, rfl, ?_, by simp, ?_⟩
    · rw [List.nil_append, Text.splitLinesFrom_plain hbreak, hlines, List.getElem?_cons_zero]
    · rw [List.drop_left' List.length_reverse]
      exact List.cons_prefix_cons.mpr ⟨rfl, hbegins⟩
  | d :: front, line, n, h => by
    obtain ⟨hd, hlater⟩ := List.forall_mem_cons.mp h
    by_cases hbreak : Text.isLineBreak d
    · obtain rfl := hd hbreak
      obtain ⟨k, l, column, hplace, hline, hcolumn⟩ := splitLinesFrom_at hc front [] (n + 1) hlater
      refine ⟨k + 1, l, column, ?_, ?_, hcolumn⟩
      · have hplace' : Place.afterAll ⟨n, line.length + 1⟩ ('\n' :: front) =
            Place.afterAll ⟨n + 1, ([] : List Char).length + 1⟩ front := rfl
        rw [hplace', hplace, Nat.add_assoc, Nat.add_comm 1 k]
      · rw [List.cons_append, Text.splitLinesFrom_newline, List.getElem?_cons_succ, hline]
    · obtain ⟨k, l, column, hplace, hline, hcolumn⟩ := splitLinesFrom_at hc front (d :: line) n hlater
      have hd' : d ≠ '\n' := by
        rintro rfl
        exact hbreak rfl
      refine ⟨k, l, column, ?_, ?_, hcolumn⟩
      · have hplace' : Place.afterAll ⟨n, line.length + 1⟩ (d :: front) =
            Place.afterAll ⟨n, (d :: line).length + 1⟩ front := by
          rw [Place.afterAll, List.foldl_cons, Place.after, if_neg hd']
          rfl
        rw [hplace', hplace]
      · rw [List.cons_append, Text.splitLinesFrom_plain hbreak, hline]

/-! ### Texts without comments -/

namespace Text

theorem mem_of_mem_beforeComment {c : Char} : ∀ {cs : List Char}, c ∈ beforeComment cs → c ∈ cs := by
  intro cs h
  fun_induction beforeComment cs with
  | case1 => cases h
  | case2 d cs _ ih =>
    rcases List.mem_cons.mp h with rfl | h
    · exact List.mem_cons_self
    · exact List.mem_cons_of_mem _ (ih h)
  | case3 => cases h

/-- No line break stands in a line. -/
theorem not_isLineBreak_of_mem_splitLinesFrom (line cs : List Char) (hline : ∀ c ∈ line, ¬ isLineBreak c) :
    ∀ l ∈ splitLinesFrom line cs, ∀ c ∈ l, ¬ isLineBreak c := by
  fun_induction splitLinesFrom line cs with
  | case1 => simp
  | case2 line _ => simpa using hline
  | case3 line cs ih => exact List.forall_mem_cons.mpr ⟨by simpa using hline, ih (by simp)⟩
  | case4 line c cs _ hc ih => exact List.forall_mem_cons.mpr ⟨by simpa using hline, ih (by simp)⟩
  | case5 line c cs _ hc ih => exact ih (List.forall_mem_cons.mpr ⟨hc, hline⟩)

theorem isUnified_join : ∀ {lines : List (List Char)}, (∀ l ∈ lines, ∀ c ∈ l, ¬ isLineBreak c) →
    IsUnified (['\n'].intercalate lines)
  | [], _ => by simp [IsUnified]
  | [line], h => by
    rw [List.intercalate_singleton]
    exact fun c hc hbreak => absurd hbreak (h line (by simp) c hc)
  | line :: next :: lines, h => by
    obtain ⟨hline, hlines⟩ := List.forall_mem_cons.mp h
    rw [List.intercalate_cons_cons, List.append_assoc]
    refine List.forall_mem_append.mpr ⟨fun c hc hbreak => absurd hbreak (hline c hc), ?_⟩
    exact List.forall_mem_cons.mpr ⟨fun _ => rfl, isUnified_join hlines⟩

/-- **The lines of a text without comments end in `\n` only.** -/
theorem isUnified_stripComments (text : String) : IsUnified (stripComments text).toList := by
  have hlines := not_isLineBreak_of_mem_splitLinesFrom [] text.toList (by simp)
  rw [stripComments, String.toList_intercalate, List.map_map]
  refine isUnified_join (List.forall_mem_map.mpr fun line hline c hc => hlines line hline c ?_)
  rw [Function.comp_apply, String.toList_ofList] at hc
  exact mem_of_mem_beforeComment hc

end Text

/-! ## Positions of syntax errors -/

/-- A location of a place in a text: the numbers are those of the place, the line is the one with that number, and
the rest of the text begins in it at the column. -/
structure IsLocated (text : String) (place : Place) (rest : List Char) (location : Text.Location) : Prop where
  line : location.line = some (place.line : Int)
  column : location.column = some (place.column : Int)
  lineText : ∃ l, location.lineText = some l ∧ 1 ≤ place.line ∧ (Text.splitLines text)[place.line - 1]? = some l ∧
    1 ≤ place.column ∧ place.column ≤ l.length ∧ l.toList.drop (place.column - 1) <+: rest

/-- A place in a text without comments, in front of what is no gap. -/
theorem isLocated_of_begins {source : String} {place : Place} {c : Char} {rest : List Char} {ts : List Token}
    (h : Begins ⟨1, 1⟩ (Text.stripComments source).toList ts place (c :: rest)) (hgap : isGap c = false) :
    IsLocated (Text.stripComments source) place (c :: rest) (place.locate (Text.stripComments source)) := by
  obtain ⟨front, htext, rfl⟩ := h.exists_append
  have hunified := Text.isUnified_stripComments source
  rw [htext] at hunified
  have hc : c ≠ '\n' := by
    rintro rfl
    exact absurd hgap (by decide)
  obtain ⟨k, l, column, hplace, hline, hcolumn, hdrop⟩ := splitLinesFrom_at hc front [] 1 hunified
  have hplace' : Place.afterAll ⟨1, 1⟩ front = ⟨1 + k, column + 1⟩ := hplace
  have hlines : (Text.splitLines (Text.stripComments source))[k]? = some (String.ofList l) := by
    rw [Text.splitLines, List.getElem?_map, htext, hline, Option.map_some]
  rw [hplace']
  refine ⟨rfl, rfl, String.ofList l, ?_, by simp, ?_, by simp, ?_, ?_⟩
  · rw [Place.locate, Nat.add_sub_cancel_left]
    exact hlines
  · rw [Nat.add_sub_cancel_left]
    exact hlines
  · rw [String.length_ofList]
    exact hcolumn
  · rw [String.toList_ofList, Nat.add_sub_cancel]
    exact hdrop

/-- **Where a text that is no program is refused.** The tokens in front of the position begin a program. At the
position stands a token with which they begin none, or the last token of a text that ends too early, or no token at
all. The location names the line of the text without comments and a column in it. -/
theorem Interpreter.syntax_error_position {i : Interpreter} {source : String} {location : Text.Location}
    (h : (i.evaluate source).1 = .error (.unexpectedInput location)) : ∃ before place rest,
    Begins ⟨1, 1⟩ (Text.stripComments source).toList before place rest ∧
    IsLocated (Text.stripComments source) place rest location ∧ IsViable before ∧
    ((∃ t, t.place = place ∧ StartsToken t rest ∧ (¬ IsViable (before ++ [t]) ∨
        (Tokenized ⟨1, 1⟩ (Text.stripComments source).toList (before ++ [t]) ∧ IsViable (before ++ [t]) ∧
          ¬ ∃ d : ProgramTree, d.tokens = before ++ [t]))) ∨
      (StartsNone rest ∧ ∃ c later, rest = c :: later ∧ isGap c = false)) := by
  rw [evaluate_eq_unexpectedInput_iff, program, parse] at h
  have hscanned := scanned_scan (Text.stripComments source)
  generalize scan (Text.stripComments source) = s at h hscanned
  obtain ⟨place, hparse, rfl⟩ : ∃ place, s.parse = .error place ∧
      location = place.locate (Text.stripComments source) := by
    cases hparse : s.parse with
    | ok p =>
      rw [hparse] at h
      cases h
    | error place =>
      rw [hparse] at h
      exact ⟨place, rfl, (Except.error.inj h).symm⟩
  -- a token at which the parser fails stands where scanning has found it
  have htoken : ∀ {before after : List Token} {t : Token}, s.tokens = before ++ t :: after → t.place = place →
      ∃ rest, Begins ⟨1, 1⟩ (Text.stripComments source).toList before place rest ∧
        IsLocated (Text.stripComments source) place rest (place.locate (Text.stripComments source)) ∧
        StartsToken t rest := by
    rintro before after t hts rfl
    obtain ⟨rest, hbegins, hstarts⟩ := hscanned.split hts
    obtain ⟨c, later, rfl, hgap⟩ := hstarts.exists_cons
    exact ⟨_, hbegins, isLocated_of_begins hbegins hgap, hstarts⟩
  obtain ⟨tokens, stop⟩ := s
  cases stop with
  | none =>
    obtain ⟨before, t, after, rfl, hplace, hviable, hfails⟩ := exists_of_parseTokens_error hparse
    obtain ⟨rest, hbegins, hlocated, hstarts⟩ := htoken rfl hplace
    refine ⟨before, place, rest, hbegins, hlocated, hviable, .inl ⟨t, hplace, hstarts, ?_⟩⟩
    rcases hfails with hnot | ⟨rfl, hends⟩
    · exact .inl hnot
    · exact .inr ⟨hscanned.tokenized rfl, hends⟩
  | some stopped =>
    rw [Scan.parse] at hparse
    cases hrun : runTokens .initial tokens with
    | error failed =>
      rw [hrun] at hparse
      obtain rfl : failed = place := Except.error.inj hparse
      obtain ⟨before, t, after, rfl, hplace, hviable, hnot⟩ := exists_of_runTokens_error hrun
      obtain ⟨rest, hbegins, hlocated, hstarts⟩ := htoken rfl hplace
      exact ⟨before, failed, rest, hbegins, hlocated, hviable, .inl ⟨t, hplace, hstarts, .inl hnot⟩⟩
    | ok state =>
      rw [hrun] at hparse
      obtain rfl : stopped = place := Except.error.inj hparse
      obtain ⟨c, later, hbegins, hgap, hnone⟩ := hscanned.stopped rfl
      exact ⟨tokens, stopped, c :: later, hbegins, isLocated_of_begins hbegins hgap, isViable_of_runTokens hrun,
        .inr ⟨hnone, c, later, rfl, hgap⟩⟩

/-- A closing bracket in the second line, behind a comment in the first one. -/
theorem Interpreter.syntax_error_position_closeParen :
    ((start []).evaluate "x = 1; // one\ny + ) 2").1 =
      .error (.unexpectedInput ⟨some 2, some 5, some "y + ) 2"⟩) ∧
    ∃ before place rest,
      Begins ⟨1, 1⟩ (Text.stripComments "x = 1; // one\ny + ) 2").toList before place rest ∧
      IsLocated (Text.stripComments "x = 1; // one\ny + ) 2") place rest ⟨some 2, some 5, some "y + ) 2"⟩ ∧
      IsViable before := by
  have hrefused : ((start []).evaluate "x = 1; // one\ny + ) 2").1 =
      .error (.unexpectedInput ⟨some 2, some 5, some "y + ) 2"⟩) :=
    (evaluate_eq_unexpectedInput_iff _ _ _).mpr (by rfl)
  obtain ⟨before, place, rest, hbegins, hlocated, hviable, -⟩ := syntax_error_position hrefused
  exact ⟨hrefused, before, place, rest, hbegins, hlocated, hviable⟩

end TensorEquations
