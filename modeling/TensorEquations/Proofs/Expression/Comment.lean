import TensorEquations.Expression.Parser
import TensorEquations.Proofs.Expression.Tokenization

/-!
# Comments and the tokens of a text

* `kindsFrom` — the kinds of the tokens of a text, places aside; `kindsFrom_append` reads two texts
  one after the other where a character between them ends every token.
* `bare` — a text without comments, character by character; by `kinds_stripComments` its tokens are
  those of the text whose lines have been cut at `//`.
* `IsUncommented` — a text without `//`, which `bare` leaves as it is up to the ends of its lines.
-/

namespace TensorEquations

/-! ## Kinds of tokens -/

/-- The kinds of the tokens of a scanned text, if every character belongs to one. -/
def Scan.kinds? (s : Scan) : Option (List TokenKind) :=
  if s.stop.isNone then some (s.tokens.map Token.kind) else none

/-- The kind of the token that is being read, if there is one. -/
def finished : Option Pending → Option (List TokenKind)
  | none => some []
  | some p => p.kind?.map ([·])

/-- The kinds of the tokens of a text; `pending` is the token that is being read. -/
def kindsFrom (pending : Option Pending) : List Char → Option (List TokenKind)
  | [] => finished pending
  | c :: cs =>
    match pending.bind (·.grow c) with
    | some p => kindsFrom (some p) cs
    | none =>
      (finished pending).bind fun before =>
        if isGap c then (kindsFrom none cs).map (before ++ ·)
        else match punctuation? c with
          | some kind => (kindsFrom none cs).map (before ++ kind :: ·)
          | none =>
            match Pending.start? c with
            | some p => (kindsFrom (some p) cs).map (before ++ ·)
            | none => none

@[simp] theorem Scan.kinds?_cons (t : Token) (s : Scan) : (s.cons t).kinds? = s.kinds?.map (t.kind :: ·) := by
  unfold kinds? cons
  split <;> rfl

/-- The tokens of a scanned text whose kinds are known. -/
theorem Scan.exists_of_kinds? {s : Scan} {ks : List TokenKind} (h : s.kinds? = some ks) :
    ∃ ts, s = ⟨ts, none⟩ ∧ ts.map Token.kind = ks := by
  rw [kinds?] at h
  split at h
  · next hstop => exact ⟨s.tokens, congrArg (Scan.mk _) (Option.isNone_iff_eq_none.mp hstop), Option.some.inj h⟩
  · cases h

theorem kindsFrom_of_grow_none {p : Pending} {c : Char} {cs : List Char} {kind : TokenKind}
    (hgrow : p.grow c = none) (hkind : p.kind? = some kind) :
    kindsFrom (some p) (c :: cs) = (kindsFrom none (c :: cs)).map (kind :: ·) := by
  simp only [kindsFrom, Option.bind_some, hgrow, finished, hkind, Option.map_some, Option.bind_none,
    List.nil_append]
  split
  · rw [Option.map_map]
    rfl
  · split
    · rw [Option.map_map]
      rfl
    · split
      · rw [Option.map_map]
        rfl
      · rfl

/-- **The kinds are those of the scanned tokens**, wherever the text begins. -/
theorem kindsFrom_eq : ∀ (pending : Option (Pending × Place)) (place : Place) (cs : List Char),
    kindsFrom (pending.map Prod.fst) cs = (scanFrom pending place cs).kinds?
  | none, _, [] => rfl
  | some (p, _), _, [] => by
    cases h : p.kind? <;> simp [kindsFrom, finished, scanFrom, Scan.kinds?, h]
  | none, place, c :: cs => by
    have ih := fun pending => kindsFrom_eq pending (place.after c) cs
    cases hgap : isGap c with
    | true => simpa [kindsFrom, scanFrom, finished, hgap] using ih none
    | false =>
      cases hmark : punctuation? c with
      | some kind => simpa [kindsFrom, scanFrom, finished, hgap, hmark] using congrArg _ (ih none)
      | none =>
        cases hstart : Pending.start? c with
        | some p => simpa [kindsFrom, scanFrom, finished, hgap, hmark, hstart] using ih (some (p, place))
        | none => simp [kindsFrom, scanFrom, finished, hgap, hmark, hstart, Scan.kinds?]
  | some (p, start), place, c :: cs => by
    have ih := fun pending => kindsFrom_eq pending (place.after c) cs
    cases hgrow : p.grow c with
    | some q =>
      simp only [kindsFrom, scanFrom, Option.map_some, Option.bind_some, hgrow]
      exact ih (some (q, start))
    | none =>
      cases hkind : p.kind? with
      | some kind =>
        rw [scanFrom_of_grow_none hgrow hkind, Scan.kinds?_cons, ← kindsFrom_eq none place (c :: cs)]
        exact kindsFrom_of_grow_none hgrow hkind
      | none => simp only [kindsFrom, scanFrom, Option.map_some, Option.bind_some, hgrow, finished, hkind,
          Option.map_none, Option.bind_none, Scan.kinds?]; rfl
termination_by pending _ cs => (cs.length, if pending.isSome then 1 else 0)

/-- A character that belongs to no token of more than one character ends every token. -/
def IsBreak (c : Char) : Prop := ∀ p : Pending, p.grow c = none

/-- **Two texts are read one after the other** where a character between them ends every token. -/
theorem kindsFrom_append {c : Char} (hbreak : IsBreak c) (rest : List Char) :
    ∀ (pending : Option Pending) (cs : List Char), kindsFrom pending (cs ++ c :: rest) =
      (kindsFrom pending cs).bind fun before => (kindsFrom none (c :: rest)).map (before ++ ·)
  | none, [] => by simp [kindsFrom, finished]
  | some p, [] => by
    cases hkind : p.kind? with
    | some kind =>
      rw [List.nil_append, kindsFrom_of_grow_none (hbreak p) hkind]
      simp [kindsFrom, finished, hkind]
    | none => simp [kindsFrom, finished, hkind, hbreak p]
  | pending, d :: cs => by
    have ih := fun pending => kindsFrom_append hbreak rest pending cs
    rw [List.cons_append]
    generalize kindsFrom none (c :: rest) = after at ih ⊢
    cases hgrow : pending.bind (·.grow d) with
    | some p => simpa only [kindsFrom, hgrow] using ih (some p)
    | none =>
      cases hgap : isGap d with
      | true =>
        simp only [kindsFrom, hgrow, hgap, if_true, ih none]
        cases finished pending <;> cases kindsFrom none cs <;> simp [Function.comp_def]
      | false =>
        cases hmark : punctuation? d with
        | some kind =>
          simp only [kindsFrom, hgrow, hgap, hmark, ih none]
          cases finished pending <;> cases kindsFrom none cs <;> simp [Function.comp_def]
        | none =>
          cases hstart : Pending.start? d with
          | some p =>
            simp only [kindsFrom, hgrow, hgap, hmark, hstart, ih (some p)]
            cases finished pending <;> cases kindsFrom (some p) cs <;> simp [Function.comp_def]
          | none => simp [kindsFrom, hgrow, hgap, hmark, hstart]

/-- A gap, such as a line break, ends every token and is none. -/
theorem isBreak_of_isGap {c : Char} (h : isGap c) : IsBreak c := by
  simp only [isGap, Bool.or_eq_true, decide_eq_true_eq] at h
  rintro (_ | _ | _ | _) <;> obtain (((rfl | rfl) | rfl) | rfl) | rfl := h <;> rfl

theorem isBreak_of_mark {c : Char} {kind : TokenKind} (h : punctuation? c = some kind) : IsBreak c := by
  obtain ⟨-, -, hname, hdigit, hpoint⟩ := mark_alone c (mem_marks h)
  rintro (_ | _ | _ | _) <;> simp [Pending.grow, hname, hdigit, hpoint]

theorem kindsFrom_gap {c : Char} (h : isGap c) (cs : List Char) :
    kindsFrom none (c :: cs) = kindsFrom none cs := by
  simp [kindsFrom, finished, h]

/-- Gaps between two texts change no token. -/
theorem kindsFrom_append_gap {c : Char} (h : isGap c) (pending : Option Pending) (cs rest : List Char) :
    kindsFrom pending (cs ++ c :: rest) =
      (kindsFrom pending cs).bind fun before => (kindsFrom none rest).map (before ++ ·) := by
  rw [kindsFrom_append (isBreak_of_isGap h), kindsFrom_gap h]

/-! ## Comments -/

/-- A text without its comments, each line break turned into a newline; `inside` tells whether a
comment is open. -/
def bare (inside : Bool) : List Char → List Char
  | [] => []
  | c :: cs =>
    if Text.isLineBreak c then '\n' :: bare false cs
    else if inside || ['/', '/'].isPrefixOf (c :: cs) then bare true cs
    else c :: bare false cs

theorem bare_break {c : Char} (h : Text.isLineBreak c) (inside : Bool) (cs : List Char) :
    bare inside (c :: cs) = '\n' :: bare false cs := by
  rw [bare, if_pos h]

theorem bare_inside {c : Char} (h : ¬ Text.isLineBreak c) (cs : List Char) :
    bare true (c :: cs) = bare true cs := by
  rw [bare, if_neg h, Bool.true_or, if_pos rfl]

/-- A character that neither ends the line nor opens a comment stays. -/
theorem bare_plain {c : Char} {cs : List Char} (h : ¬ Text.isLineBreak c)
    (hcomment : ¬ ['/', '/'] <+: c :: cs) : bare false (c :: cs) = c :: bare false cs := by
  rw [← List.isPrefixOf_iff_prefix, Bool.not_eq_true] at hcomment
  rw [bare, if_neg h, hcomment, Bool.or_false, if_neg Bool.false_ne_true]

theorem bare_comment (cs : List Char) : bare false ('/' :: '/' :: cs) = bare true cs := by
  rw [bare, if_neg (by decide), if_pos (by simp), bare_inside (by decide)]

/-- The rest of a line is passed over in a comment. -/
theorem bare_inside_append : ∀ {line : List Char}, (∀ c ∈ line, ¬ Text.isLineBreak c) → ∀ cs : List Char,
    bare true (line ++ cs) = bare true cs
  | [], _, _ => rfl
  | c :: line, h, cs => by
    obtain ⟨hc, hline⟩ := List.forall_mem_cons.mp h
    rw [List.cons_append, bare_inside hc, bare_inside_append hline]

/-- A comment opens inside of the first text, or with its last character. -/
theorem comment_prefix_append {c : Char} {cs rest : List Char} :
    ['/', '/'] <+: c :: (cs ++ rest) ↔
      ['/', '/'] <+: c :: cs ∨ c = '/' ∧ cs = [] ∧ '/' ∈ rest.head? := by
  cases cs with
  | nil => cases rest <;> simp [List.cons_prefix_cons, eq_comm]
  | cons d cs => simp [List.cons_prefix_cons]

theorem beforeComment_plain {c : Char} {cs : List Char} (h : ¬ ['/', '/'] <+: c :: cs) :
    Text.beforeComment (c :: cs) = c :: Text.beforeComment cs := by
  rw [Text.beforeComment.eq_def]
  split
  · next heq => exact absurd (heq ▸ ⟨_, rfl⟩) h
  · next heq =>
    obtain ⟨rfl, rfl⟩ := List.cons.inj heq
    rfl
  · next heq => exact nomatch heq

/-- The beginning of a text after a line: nothing, or the break of the line. -/
def IsLineEnd (rest : List Char) : Prop := ∀ c ∈ rest.head?, Text.isLineBreak c

/-- A line is cut at its comment. -/
theorem bare_line {rest : List Char} (hrest : IsLineEnd rest) : ∀ {line : List Char},
    (∀ c ∈ line, ¬ Text.isLineBreak c) →
    bare false (line ++ rest) = Text.beforeComment line ++ bare false rest
  | [], _ => rfl
  | c :: line, h => by
    obtain ⟨hc, hline⟩ := List.forall_mem_cons.mp h
    by_cases hcomment : ['/', '/'] <+: c :: line
    · obtain ⟨line, heq⟩ := hcomment
      rw [← heq] at h ⊢
      have hinside : bare true rest = bare false rest := by
        cases rest with
        | nil => rfl
        | cons d rest => rw [bare_break (hrest d rfl), bare_break (hrest d rfl)]
      have hline : ∀ c ∈ line, ¬ Text.isLineBreak c := fun d hd => h d (List.mem_append_right _ hd)
      simp only [List.cons_append, List.nil_append, bare_comment, bare_inside_append hline, hinside,
        Text.beforeComment]
    · have hrest' : ¬ ['/', '/'] <+: c :: (line ++ rest) := by
        rw [comment_prefix_append]
        rintro (h | ⟨rfl, rfl, hslash⟩)
        · exact hcomment h
        · exact absurd (hrest '/' hslash) (by decide)
      rw [List.cons_append, bare_plain hc hrest', bare_line hrest hline, beforeComment_plain hcomment]
      rfl

/-- The kinds of the tokens of lines that are joined. -/
theorem kindsFrom_join (pending : Option Pending) (line : List Char) (lines : List (List Char)) :
    kindsFrom pending (['\n'].intercalate (line :: lines)) =
      (kindsFrom pending line).bind fun before =>
        (kindsFrom none (['\n'].intercalate lines)).map (before ++ ·) := by
  cases lines with
  | nil => simp [kindsFrom, finished]
  | cons next lines =>
    rw [List.intercalate_cons_cons, List.append_assoc, List.singleton_append,
      kindsFrom_append_gap (c := '\n') rfl]

/-- Cutting the lines and joining them leaves the tokens of the text without comments; `line` is the
reversed beginning of the first line. -/
theorem kindsFrom_splitLines (pending : Option Pending) (line cs : List Char)
    (hline : ∀ c ∈ line, ¬ Text.isLineBreak c) :
    kindsFrom pending (['\n'].intercalate ((Text.splitLinesFrom line cs).map Text.beforeComment)) =
      kindsFrom pending (bare false (line.reverse ++ cs)) := by
  have hbreak : ∀ (pending : Option Pending) {line : List Char} {c : Char} (cs : List Char),
      (∀ c ∈ line, ¬ Text.isLineBreak c) → Text.isLineBreak c →
      kindsFrom pending (bare false (line.reverse ++ c :: cs)) =
        (kindsFrom pending (Text.beforeComment line.reverse)).bind fun before =>
          (kindsFrom none (bare false cs)).map (before ++ ·) := by
    intro pending line c cs hline hc
    have hend : IsLineEnd (c :: cs) := fun d hd => Option.some.inj hd ▸ hc
    rw [bare_line hend (by simpa using hline), bare_break hc, kindsFrom_append_gap (c := '\n') rfl]
  fun_induction Text.splitLinesFrom line cs generalizing pending with
  | case1 line hempty =>
    obtain rfl := List.isEmpty_iff.mp hempty
    rfl
  | case2 line _ =>
    have hend : IsLineEnd [] := fun d hd => nomatch hd
    rw [List.append_nil, ← List.append_nil line.reverse, bare_line hend (by simpa using hline)]
    simp [bare]
  | case3 line cs ih =>
    rw [List.map_cons, kindsFrom_join, hbreak pending _ hline (by decide), ih none (List.forall_mem_nil _)]
    congr 1
    funext before
    rw [List.reverse_nil, List.nil_append, bare_break (c := '\n') (by decide), kindsFrom_gap (by rfl)]
  | case4 line c cs _ hc ih =>
    rw [List.map_cons, kindsFrom_join, hbreak pending _ hline hc, ih none (List.forall_mem_nil _)]
    rfl
  | case5 line c cs _ hc ih =>
    rw [ih pending (List.forall_mem_cons.mpr ⟨hc, hline⟩), List.reverse_cons, List.append_assoc,
      List.singleton_append]

/-- **Tokens do not depend on how comments are cut off**, line by line or character by character. -/
theorem kinds_stripComments (text : String) :
    (scan (Text.stripComments text)).kinds? = kindsFrom none (bare false text.toList) := by
  have hlines : (String.toList ∘ fun line => String.ofList (Text.beforeComment line)) =
      Text.beforeComment := funext fun _ => String.toList_ofList
  rw [scan, ← kindsFrom_eq none, Option.map_none, Text.stripComments, String.toList_intercalate, List.map_map,
    hlines]
  exact kindsFrom_splitLines none [] text.toList (List.forall_mem_nil _)

/-! ## Text without comments -/

/-- Text without `//`. -/
def IsUncommented (cs : List Char) : Prop := ¬ ['/', '/'] <:+: cs

theorem IsUncommented.of_not_mem {cs : List Char} (h : '/' ∉ cs) : IsUncommented cs :=
  fun hi => h (hi.subset List.mem_cons_self)

theorem IsUncommented.tail {c : Char} {cs : List Char} (h : IsUncommented (c :: cs)) : IsUncommented cs :=
  fun hi => h (hi.trans (List.suffix_cons c cs).isInfix)

theorem IsUncommented.cons {c : Char} {cs : List Char} (hc : c ≠ '/') (h : IsUncommented cs) :
    IsUncommented (c :: cs) :=
  fun hi => (List.infix_cons_iff.mp hi).elim (fun hp => hc (List.cons_prefix_cons.mp hp).1.symm) h

/-- A character that is no slash keeps two texts apart. -/
theorem IsUncommented.append_cons {c : Char} (hc : c ≠ '/') {rest : List Char} (hrest : IsUncommented rest) :
    ∀ {cs : List Char}, IsUncommented cs → IsUncommented (cs ++ c :: rest)
  | [], _ => .cons hc hrest
  | d :: cs, h => fun hi => by
    rcases List.infix_cons_iff.mp hi with hp | hi
    · rcases comment_prefix_append.mp hp with hp | ⟨-, -, hslash⟩
      · exact h hp.isInfix
      · exact hc (Option.some.inj hslash)
    · exact append_cons hc hrest h.tail hi

/-- Text without comments is read up to its end. -/
theorem bare_append {rest : List Char} (hrest : '/' ∉ rest.head?) : ∀ {cs : List Char}, IsUncommented cs →
    bare false (cs ++ rest) = bare false cs ++ bare false rest
  | [], _ => rfl
  | c :: cs, h => by
    have ih := bare_append hrest h.tail
    by_cases hbreak : Text.isLineBreak c
    · rw [List.cons_append, bare_break hbreak, bare_break hbreak, ih, List.cons_append]
    · have hcomment : ¬ ['/', '/'] <+: c :: cs := fun hp => h hp.isInfix
      have hcomment' : ¬ ['/', '/'] <+: c :: (cs ++ rest) := by
        rw [comment_prefix_append]
        rintro (hp | ⟨-, -, hslash⟩)
        · exact hcomment hp
        · exact hrest hslash
      rw [List.cons_append, bare_plain hbreak hcomment', bare_plain hbreak hcomment, ih, List.cons_append]

end TensorEquations
