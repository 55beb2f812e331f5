import Mathlib
import TensorEquations.Expression.Token

/-!
# The tokens of a text

* `Lexeme` — the texts of tokens.
* `Pending.Holds` — the text that a token has been read from so far; it is read as one token only,
  and its beginning has been read before.
* `Tokenized` — the tokens of a text by the rule that each is as long as it can be.
* `Scanned` — the same up to the first character that starts no token.
* `scanned_scanFrom`, `scan_eq_iff` — scanning finds exactly these tokens.
* `Lexeme.scan_eq` — the text of one token.
-/

namespace TensorEquations

/-! ## Words -/

/-- The texts of tokens: names, numbers and single marks. -/
inductive Lexeme : List Char → TokenKind → Prop
  | name {c : Char} {cs : List Char} (hfirst : isNameFirst c) (hlater : ∀ d ∈ cs, isNameLater d) :
      Lexeme (c :: cs) (.name (String.ofList (c :: cs)))
  | whole {ds : List Char} (hne : ds ≠ []) (hds : ∀ d ∈ ds, Text.isDecimalDigit d) :
      Lexeme ds (.number ⟨ds, none⟩)
  | fraction {ds ps : List Char} (hne : ds ≠ [] ∨ ps ≠ []) (hds : ∀ d ∈ ds, Text.isDecimalDigit d)
      (hps : ∀ d ∈ ps, Text.isDecimalDigit d) : Lexeme (ds ++ '.' :: ps) (.number ⟨ds, some ps⟩)
  | mark {c : Char} {kind : TokenKind} (h : punctuation? c = some kind) : Lexeme [c] kind

namespace Pending

/-- The text that a token has been read from so far. -/
inductive Holds : Pending → List Char → Prop
  | start {c : Char} {p : Pending} (h : start? c = some p) : Holds p [c]
  | grow {p q : Pending} {w : List Char} {c : Char} (h : Holds p w) (hgrow : p.grow c = some q) :
      Holds q (w ++ [c])

theorem Holds.ne_nil {p : Pending} {w : List Char} (h : Holds p w) : w ≠ [] := by
  cases h <;> simp

/-- What has been read before the last character. -/
theorem Holds.last {q : Pending} {w : List Char} {c : Char} (h : Holds q (w ++ [c])) :
    (w = [] ∧ start? c = some q) ∨ ∃ p, Holds p w ∧ p.grow c = some q := by
  generalize htext : w ++ [c] = text at h
  cases h with
  | @start d _ h =>
    have htext' : w ++ [c] = [] ++ [d] := htext
    obtain ⟨rfl, hd⟩ := List.append_inj' htext' rfl
    obtain rfl := List.singleton_inj.mp hd
    exact .inl ⟨rfl, h⟩
  | grow h hgrow =>
    obtain ⟨rfl, hd⟩ := List.append_inj' htext rfl
    obtain rfl := List.singleton_inj.mp hd
    exact .inr ⟨_, h, hgrow⟩

/-- A text is read as one token only. -/
theorem Holds.unique {p : Pending} {w : List Char} (h : Holds p w) : ∀ {q : Pending}, Holds q w → p = q := by
  induction h with
  | start h =>
    intro q hq
    rcases Holds.last (w := []) hq with ⟨-, hq⟩ | ⟨_, hq, -⟩
    · exact Option.some.inj (h.symm.trans hq)
    · exact absurd rfl hq.ne_nil
  | grow hp hgrow ih =>
    intro q hq
    rcases hq.last with ⟨rfl, -⟩ | ⟨_, hq, hgrow'⟩
    · exact absurd rfl hp.ne_nil
    · obtain rfl := ih hq
      exact Option.some.inj (hgrow.symm.trans hgrow')

/-- The beginning of what has been read has been read before. -/
theorem Holds.of_append {w v : List Char} {p : Pending} (h : Holds p (w ++ v)) (hw : w ≠ []) :
    ∃ q, Holds q w := by
  rcases List.eq_nil_or_concat v with rfl | ⟨v, c, rfl⟩
  · exact ⟨p, List.append_nil w ▸ h⟩
  · rw [List.concat_eq_append, ← List.append_assoc] at h
    rcases h.last with ⟨hnil, -⟩ | ⟨q, hq, -⟩
    · exact absurd (List.append_eq_nil_iff.mp hnil).1 hw
    · exact hq.of_append hw
termination_by v.length
decreasing_by simp_all

/-- The characters of a token that is being read. -/
def text : Pending → List Char
  | name text => text.reverse
  | whole ds => ds.reverse
  | fraction ds ps => ds.reverse ++ '.' :: ps.reverse
  | point => ['.']

/-- A token that is being read has the characters it should have. -/
def IsValid : Pending → Prop
  | name text => ∃ c cs, text.reverse = c :: cs ∧ isNameFirst c ∧ ∀ d ∈ cs, isNameLater d
  | whole ds => ds ≠ [] ∧ ∀ d ∈ ds, Text.isDecimalDigit d
  | fraction ds ps => (ds ≠ [] ∨ ps ≠ []) ∧ (∀ d ∈ ds, Text.isDecimalDigit d) ∧
      ∀ d ∈ ps, Text.isDecimalDigit d
  | point => True

theorem start_valid {c : Char} {p : Pending} (h : start? c = some p) : p.text = [c] ∧ p.IsValid := by
  rw [start?] at h
  split_ifs at h with hname hdigit hpoint <;> cases h
  · exact ⟨rfl, c, [], rfl, hname, List.forall_mem_nil _⟩
  · exact ⟨rfl, List.cons_ne_nil _ _, List.forall_mem_singleton.mpr hdigit⟩
  · exact ⟨congrArg (fun c => [c]) hpoint.symm, trivial⟩

theorem grow_valid {p q : Pending} {c : Char} (h : p.grow c = some q) (hp : p.IsValid) :
    q.text = p.text ++ [c] ∧ q.IsValid := by
  cases p with
  | name t =>
    obtain ⟨d, ds, ht, hd, hds⟩ := hp
    rw [grow] at h
    split_ifs at h with hc
    cases h
    refine ⟨List.reverse_cons, d, ds ++ [c], ?_, hd, ?_⟩
    · rw [List.reverse_cons, ht, List.cons_append]
    · exact List.forall_mem_append.mpr ⟨hds, List.forall_mem_singleton.mpr hc⟩
  | whole ds =>
    obtain ⟨hne, hds⟩ := hp
    rw [grow] at h
    split_ifs at h with hc hpoint <;> cases h
    · exact ⟨List.reverse_cons, List.cons_ne_nil _ _, List.forall_mem_cons.mpr ⟨hc, hds⟩⟩
    · exact ⟨by rw [hpoint]; rfl, .inl hne, hds, List.forall_mem_nil _⟩
  | fraction ds ps =>
    obtain ⟨hne, hds, hps⟩ := hp
    rw [grow] at h
    split_ifs at h with hc
    cases h
    exact ⟨by simp [text], .inr (List.cons_ne_nil _ _), hds, List.forall_mem_cons.mpr ⟨hc, hps⟩⟩
  | point =>
    rw [grow] at h
    split_ifs at h with hc
    cases h
    exact ⟨rfl, .inr (List.cons_ne_nil _ _), List.forall_mem_nil _, List.forall_mem_singleton.mpr hc⟩

theorem Holds.valid {p : Pending} {w : List Char} (h : Holds p w) : p.text = w ∧ p.IsValid := by
  induction h with
  | start h => exact start_valid h
  | grow _ hgrow ih =>
    obtain ⟨htext, hvalid⟩ := grow_valid hgrow ih.2
    exact ⟨htext.trans (congrArg (· ++ _) ih.1), hvalid⟩

/-- What has been read is the text of its token. -/
theorem Holds.lexeme {p : Pending} {w : List Char} {kind : TokenKind} (h : Holds p w)
    (hkind : p.kind? = some kind) : Lexeme w kind := by
  obtain ⟨rfl, hvalid⟩ := h.valid
  cases p with
  | name t =>
    obtain ⟨c, cs, ht, hfirst, hlater⟩ := hvalid
    cases hkind
    rw [text, ht]
    exact .name hfirst hlater
  | whole ds =>
    obtain ⟨hne, hds⟩ := hvalid
    cases hkind
    exact .whole (mt List.reverse_eq_nil_iff.mp hne) (by simpa [text] using hds)
  | fraction ds ps =>
    obtain ⟨hne, hds, hps⟩ := hvalid
    cases hkind
    exact .fraction (by simpa using hne) (by simpa using hds) (by simpa using hps)
  | point => exact nomatch hkind

/-- A token grows by several characters as it grows by one. -/
theorem Holds.extend {f : List Char → Pending} {belongs : Char → Prop}
    (hgrow : ∀ t c, belongs c → (f t).grow c = some (f (c :: t))) :
    ∀ {t w cs : List Char}, Holds (f t) w → (∀ c ∈ cs, belongs c) → Holds (f (cs.reverse ++ t)) (w ++ cs)
  | t, w, [], h, _ => by simpa using h
  | t, w, c :: cs, h, hcs => by
    obtain ⟨hc, hcs⟩ := List.forall_mem_cons.mp hcs
    simpa using (h.grow (hgrow t c hc)).extend hgrow hcs

theorem grow_name (t : List Char) (c : Char) (h : isNameLater c) : (name t).grow c = some (name (c :: t)) :=
  if_pos h

theorem grow_whole (t : List Char) (c : Char) (h : Text.isDecimalDigit c) :
    (whole t).grow c = some (whole (c :: t)) :=
  if_pos h

theorem grow_fraction (ds t : List Char) (c : Char) (h : Text.isDecimalDigit c) :
    (fraction ds t).grow c = some (fraction ds (c :: t)) :=
  if_pos h

/-- Digits, of any script, and letters are different characters. -/
theorem isNameFirst_of_isDecimalDigit {c : Char} (h : Text.isDecimalDigit c) : isNameFirst c = false := by
  rw [Bool.eq_false_iff]
  intro hname
  have hascii : c.toNat < 128 ∧ c.isDigit = false := by
    simp only [isNameFirst, Char.isAlpha, Char.isUpper, Char.isLower, Char.isDigit, Char.toNat,
      Bool.or_eq_true, Bool.and_eq_true, decide_eq_true_eq, Bool.and_eq_false_iff, decide_eq_false_iff_not,
      UInt32.le_iff_toNat_le, ge_iff_le] at hname ⊢
    rcases hname with (h | h) | rfl
    · simp at h ⊢; omega
    · simp at h ⊢; omega
    · decide
  simp [Text.isDecimalDigit, Text.digitValue?, hascii.1, hascii.2] at h

theorem Holds.of_digits {ds : List Char} (hne : ds ≠ []) (hds : ∀ d ∈ ds, Text.isDecimalDigit d) :
    Holds (whole ds.reverse) ds := by
  obtain ⟨d, ds, rfl⟩ := List.exists_cons_of_ne_nil hne
  obtain ⟨hd, hds⟩ := List.forall_mem_cons.mp hds
  have hstart : Holds (whole [d]) [d] := .start (by simp [start?, isNameFirst_of_isDecimalDigit hd, hd])
  simpa using hstart.extend grow_whole hds

/-- The text of a token is read as that token, unless it is a mark. -/
theorem Holds.of_lexeme {w : List Char} {kind : TokenKind} (h : Lexeme w kind) :
    (∃ c, w = [c] ∧ punctuation? c = some kind) ∨ ∃ p, Holds p w ∧ p.kind? = some kind := by
  cases h with
  | mark h => exact .inl ⟨_, rfl, h⟩
  | @name c cs hfirst hlater =>
    have hstart : Holds (name [c]) [c] := .start (if_pos hfirst)
    exact .inr ⟨_, hstart.extend grow_name hlater, by simp [kind?]⟩
  | whole hne hds => exact .inr ⟨_, .of_digits hne hds, by simp [kind?]⟩
  | @fraction ds ps hne hds hps =>
    by_cases hempty : ds = []
    · subst hempty
      obtain ⟨d, ps, rfl⟩ := List.exists_cons_of_ne_nil (hne.resolve_left (not_not.mpr rfl))
      obtain ⟨hd, hps⟩ := List.forall_mem_cons.mp hps
      have hpoint : Holds point ['.'] := .start rfl
      have hstart : Holds (fraction [] [d]) ['.', d] := hpoint.grow (if_pos hd)
      exact .inr ⟨_, hstart.extend (grow_fraction []) hps, by simp [kind?]⟩
    · have hstart : Holds (fraction ds.reverse []) (ds ++ ['.']) := (Holds.of_digits hempty hds).grow rfl
      have h := hstart.extend (grow_fraction ds.reverse) hps
      rw [List.append_assoc, List.singleton_append] at h
      exact .inr ⟨_, h, by simp [kind?]⟩

end Pending

/-! ## The tokens of a text -/

/-- The place behind a text. -/
def Place.afterAll (place : Place) (cs : List Char) : Place := cs.foldl Place.after place

/-- The tokens of a text from a place on. Gaps are passed over, and no longer text than that of a
token would be one, too. -/
inductive Tokenized : Place → List Char → List Token → Prop
  | nil (place : Place) : Tokenized place [] []
  | gap {place : Place} {c : Char} {cs : List Char} {ts : List Token} (hgap : isGap c)
      (h : Tokenized (place.after c) cs ts) : Tokenized place (c :: cs) ts
  | token {place : Place} {w rest : List Char} {kind : TokenKind} {ts : List Token} (hlexeme : Lexeme w kind)
      (hlongest : ∀ v kind', Lexeme v kind' → v <+: w ++ rest → v.length ≤ w.length)
      (h : Tokenized (place.afterAll w) rest ts) : Tokenized place (w ++ rest) (⟨kind, place⟩ :: ts)

/-- The characters that are tokens by themselves. -/
def marks : List Char := ['+', '-', '*', '/', '=', ',', ':', ';', '(', ')', '\x7b', '\x7d']

theorem mem_marks {c : Char} {kind : TokenKind} (h : punctuation? c = some kind) : c ∈ marks := by
  unfold punctuation? at h
  split at h <;> first | decide | exact nomatch h

/-- A mark is no gap, begins no name or number and belongs to none. -/
theorem mark_alone : ∀ c ∈ marks, isGap c = false ∧ Pending.start? c = none ∧ isNameLater c = false ∧
    Text.isDecimalDigit c = false ∧ c ≠ '.' := List.all_iff_forall_prop.mp (by decide)

/-- A name or a number begins with neither a gap nor a mark. -/
theorem not_gap_of_start {c : Char} {p : Pending} (h : Pending.start? c = some p) :
    isGap c = false ∧ punctuation? c = none := by
  constructor
  · rw [Bool.eq_false_iff]
    intro hgap
    simp only [isGap, Bool.or_eq_true, decide_eq_true_eq] at hgap
    obtain (((rfl | rfl) | rfl) | rfl) | rfl := hgap <;> exact nomatch h
  · rw [Option.eq_none_iff_forall_ne_some]
    intro kind hmark
    exact nomatch h.symm.trans (mark_alone c (mem_marks hmark)).2.1

theorem Lexeme.ne_nil {w : List Char} {kind : TokenKind} (h : Lexeme w kind) : w ≠ [] := by
  cases h with
  | whole hne => exact hne
  | _ => simp

/-- No longer text than a mark is a token. -/
theorem Lexeme.eq_nil_of_mark {c : Char} {v : List Char} {kind kind' : TokenKind}
    (hmark : punctuation? c = some kind) (h : Lexeme (c :: v) kind') : v = [] := by
  rcases Pending.Holds.of_lexeme h with ⟨d, hd, -⟩ | ⟨p, hp, -⟩
  · exact (List.cons.inj hd).2
  · obtain ⟨q, hq⟩ := Pending.Holds.of_append (w := [c]) hp (List.cons_ne_nil _ _)
    rcases Pending.Holds.last (w := []) hq with ⟨-, hstart⟩ | ⟨_, hnil, -⟩
    · exact nomatch hstart.symm.trans (mark_alone c (mem_marks hmark)).2.1
    · exact absurd rfl hnil.ne_nil

/-- Where a token does not grow, no longer text is one. -/
theorem Pending.Holds.longest {p : Pending} {w rest : List Char} (h : Holds p w)
    (hgrow : ∀ c ∈ rest.head?, p.grow c = none) {v : List Char} {kind : TokenKind} (hv : Lexeme v kind)
    (hbegins : v <+: w ++ rest) : v.length ≤ w.length := by
  by_contra hlonger
  have hw := List.length_pos_of_ne_nil h.ne_nil
  obtain ⟨u, rfl⟩ := List.prefix_of_prefix_length_le (List.prefix_append w rest) hbegins (by omega)
  cases u with
  | nil => simp at hlonger
  | cons c u =>
    have hc : c ∈ rest.head? := by
      obtain ⟨t, ht⟩ := (List.prefix_append_right_inj w).mp hbegins
      rw [← ht]
      rfl
    rcases Holds.of_lexeme hv with ⟨d, hd, -⟩ | ⟨q, hq, -⟩
    · have := congrArg List.length hd
      simp only [List.length_append, List.length_cons, List.length_nil] at this
      omega
    · rw [← List.singleton_append, ← List.append_assoc] at hq
      obtain ⟨q, hq⟩ := hq.of_append (by simp)
      rcases hq.last with ⟨hnil, -⟩ | ⟨p', hp', hgrow'⟩
      · exact h.ne_nil hnil
      · obtain rfl := h.unique hp'
        exact nomatch (hgrow c hc).symm.trans hgrow'

@[simp] theorem Place.afterAll_append (place : Place) (cs ds : List Char) :
    place.afterAll (cs ++ ds) = (place.afterAll cs).afterAll ds := List.foldl_append

/-- A token that does not grow any more is finished, and the rest read from the same character. -/
theorem scanFrom_of_grow_none {p : Pending} {start place : Place} {c : Char} {cs : List Char}
    {kind : TokenKind} (hgrow : p.grow c = none) (hkind : p.kind? = some kind) :
    scanFrom (some (p, start)) place (c :: cs) = (scanFrom none place (c :: cs)).cons ⟨kind, start⟩ := by
  simp only [scanFrom, hgrow, hkind]

/-- Scanning reads a token to its end before it looks further. -/
theorem scanFrom_holds {p : Pending} {w : List Char} (h : p.Holds w) (place : Place) (rest : List Char) :
    scanFrom none place (w ++ rest) = scanFrom (some (p, place)) (place.afterAll w) rest := by
  induction h generalizing rest with
  | start h =>
    obtain ⟨hgap, hmark⟩ := not_gap_of_start h
    simp [scanFrom, hgap, hmark, h, Place.afterAll]
  | grow _ hgrow ih =>
    rw [List.append_assoc, List.singleton_append, ih, Place.afterAll_append]
    simp [scanFrom, hgrow, Place.afterAll]

theorem scanFrom_gap {c : Char} (h : isGap c) (place : Place) (cs : List Char) :
    scanFrom none place (c :: cs) = scanFrom none (place.after c) cs := by
  simp [scanFrom, h]

theorem scanFrom_mark {c : Char} {kind : TokenKind} (h : punctuation? c = some kind) (place : Place)
    (cs : List Char) :
    scanFrom none place (c :: cs) = (scanFrom none (place.after c) cs).cons ⟨kind, place⟩ := by
  simp [scanFrom, (mark_alone c (mem_marks h)).1, h]

/-- A token that has grown may end. -/
theorem Pending.kind?_of_grow {p q : Pending} {c : Char} (h : p.grow c = some q) :
    ∃ kind, q.kind? = some kind := by
  cases q with
  | point => cases p <;> simp only [grow] at h <;> split_ifs at h <;> exact nomatch h
  | _ => exact ⟨_, rfl⟩

/-- Scanning finds the tokens. -/
theorem Tokenized.scanFrom {place : Place} {cs : List Char} {ts : List Token} (h : Tokenized place cs ts) :
    scanFrom none place cs = ⟨ts, none⟩ := by
  induction h with
  | nil => rfl
  | gap hgap _ ih => rw [scanFrom_gap hgap, ih]
  | @token place w rest kind ts hlexeme hlongest _ ih =>
    rcases Pending.Holds.of_lexeme hlexeme with ⟨c, rfl, hmark⟩ | ⟨p, hp, hkind⟩
    · rw [List.singleton_append, scanFrom_mark hmark]
      exact congrArg _ ih
    · rw [scanFrom_holds hp]
      cases rest with
      | nil =>
        obtain rfl : [] = ts := congrArg Scan.tokens ih
        simp [TensorEquations.scanFrom, hkind]
      | cons c rest =>
        have hgrow : p.grow c = none := by
          rw [Option.eq_none_iff_forall_ne_some]
          intro q hq
          obtain ⟨kind', hkind'⟩ := Pending.kind?_of_grow hq
          have hle := hlongest (w ++ [c]) kind' ((hp.grow hq).lexeme hkind') ⟨rest, by simp⟩
          rw [List.length_append, List.length_singleton] at hle
          exact Nat.not_succ_le_self _ hle
        rw [scanFrom_of_grow_none hgrow hkind, ih]
        rfl

/-- The tokens of a text from a place on, and the place of the first character that is neither a gap nor starts a
token, if there is one. -/
inductive Scanned : Place → List Char → Scan → Prop
  | nil (place : Place) : Scanned place [] ⟨[], none⟩
  | gap {place : Place} {c : Char} {cs : List Char} {s : Scan} (hgap : isGap c)
      (h : Scanned (place.after c) cs s) : Scanned place (c :: cs) s
  | token {place : Place} {w rest : List Char} {kind : TokenKind} {s : Scan} (hlexeme : Lexeme w kind)
      (hlongest : ∀ v kind', Lexeme v kind' → v <+: w ++ rest → v.length ≤ w.length)
      (h : Scanned (place.afterAll w) rest s) : Scanned place (w ++ rest) (s.cons ⟨kind, place⟩)
  | stop {place : Place} {c : Char} {cs : List Char} (hgap : isGap c = false)
      (hnone : ∀ w kind, Lexeme w kind → ¬ w <+: c :: cs) : Scanned place (c :: cs) ⟨[], some place⟩

/-- Without such a character, the tokens are those of the whole text. -/
theorem Scanned.tokenized {place : Place} {cs : List Char} {s : Scan} (h : Scanned place cs s)
    (hstop : s.stop = none) : Tokenized place cs s.tokens := by
  induction h with
  | nil place => exact .nil place
  | gap hgap _ ih => exact .gap hgap (ih hstop)
  | token hlexeme hlongest _ ih => exact .token hlexeme hlongest (ih hstop)
  | stop => exact nomatch hstop

/-- A token that ends here is as long as it can be. -/
theorem Scanned.of_holds {p : Pending} {w rest : List Char} {kind : TokenKind} {place : Place} {s : Scan}
    (hp : p.Holds w) (hkind : p.kind? = some kind) (hgrow : ∀ c ∈ rest.head?, p.grow c = none)
    (h : Scanned (place.afterAll w) rest s) : Scanned place (w ++ rest) (s.cons ⟨kind, place⟩) :=
  .token (hp.lexeme hkind) (fun _ _ hv => hp.longest hgrow hv) h

/-- A mark is a token by itself. -/
theorem Scanned.of_mark {c : Char} {kind : TokenKind} {cs : List Char} {place : Place} {s : Scan}
    (hmark : punctuation? c = some kind) (h : Scanned (place.after c) cs s) :
    Scanned place (c :: cs) (s.cons ⟨kind, place⟩) := by
  refine .token (w := [c]) (.mark hmark) (fun v kind' hv hbegins => ?_) h
  obtain ⟨d, v, rfl⟩ := List.exists_cons_of_ne_nil hv.ne_nil
  obtain ⟨rfl, -⟩ := List.cons_prefix_cons.mp hbegins
  exact Nat.le_of_eq (congrArg (·.length + 1) (hv.eq_nil_of_mark hmark))

/-- A character that is no mark and begins no name or number starts no token. -/
theorem Scanned.of_start_none {c : Char} {cs : List Char} {place : Place} (hgap : isGap c = false)
    (hmark : punctuation? c = none) (hstart : Pending.start? c = none) :
    Scanned place (c :: cs) ⟨[], some place⟩ := by
  refine .stop hgap fun v kind hv hbegins => ?_
  obtain ⟨d, v, rfl⟩ := List.exists_cons_of_ne_nil hv.ne_nil
  obtain ⟨rfl, -⟩ := List.cons_prefix_cons.mp hbegins
  rcases Pending.Holds.of_lexeme hv with ⟨e, he, hmark'⟩ | ⟨p, hp, -⟩
  · obtain rfl := (List.cons.inj he).1
    exact nomatch hmark.symm.trans hmark'
  · obtain ⟨q, hq⟩ := Pending.Holds.of_append (w := [d]) hp (List.cons_ne_nil _ _)
    rcases Pending.Holds.last (w := []) hq with ⟨-, hstart'⟩ | ⟨_, hnil, -⟩
    · exact nomatch hstart.symm.trans hstart'
    · exact absurd rfl hnil.ne_nil

/-- A token that may neither grow nor end is a point, and no token starts with it. -/
theorem Scanned.of_kind_none {p : Pending} {w rest : List Char} {place : Place} (hp : p.Holds w)
    (hkind : p.kind? = none) (hgrow : ∀ c ∈ rest.head?, p.grow c = none) :
    Scanned place (w ++ rest) ⟨[], some place⟩ := by
  obtain rfl : p = .point := by
    cases p with
    | point => rfl
    | _ => exact nomatch hkind
  obtain rfl : ['.'] = w := hp.valid.1
  refine .stop (by decide) fun v kind hv hbegins => ?_
  have hlength := hp.longest hgrow hv hbegins
  have hv' : v = ['.'] :=
    (List.prefix_of_prefix_length_le hbegins (List.prefix_append ['.'] rest) hlength).eq_of_length
      (Nat.le_antisymm hlength (List.length_pos_of_ne_nil hv.ne_nil))
  rw [hv'] at hv
  rcases Pending.Holds.of_lexeme hv with ⟨c, hc, hmark⟩ | ⟨q, hq, hkind'⟩
  · obtain rfl := (List.cons.inj hc).1
    exact nomatch hmark
  · obtain rfl := hp.unique hq
    exact nomatch hkind'

/-- **Scanning finds the tokens up to the first character that starts none**; `w` is what has been read of the
token that is being read. -/
theorem scanned_scanFrom : ∀ cs : List Char,
    (∀ place, Scanned place cs (scanFrom none place cs)) ∧
    ∀ p w place, Pending.Holds p w →
      Scanned place (w ++ cs) (scanFrom (some (p, place)) (place.afterAll w) cs)
  | [] => by
    refine ⟨fun place => .nil place, fun p w place hp => ?_⟩
    cases hkind : p.kind? with
    | none =>
      simp only [scanFrom, hkind]
      exact .of_kind_none hp hkind (by simp)
    | some kind =>
      simp only [scanFrom, hkind]
      exact .of_holds hp hkind (by simp) (.nil _)
  | c :: cs => by
    have ih := scanned_scanFrom cs
    have hfirst : ∀ place, Scanned place (c :: cs) (scanFrom none place (c :: cs)) := by
      intro place
      cases hgap : isGap c with
      | true => exact scanFrom_gap hgap place cs ▸ .gap hgap (ih.1 _)
      | false =>
        cases hmark : punctuation? c with
        | some kind => exact scanFrom_mark hmark place cs ▸ .of_mark hmark (ih.1 _)
        | none =>
          cases hstart : Pending.start? c with
          | some p => simpa [scanFrom, hgap, hmark, hstart, Place.afterAll] using ih.2 p [c] place (.start hstart)
          | none => simpa [scanFrom, hgap, hmark, hstart] using Scanned.of_start_none hgap hmark hstart
    refine ⟨hfirst, fun p w place hp => ?_⟩
    cases hgrow : p.grow c with
    | some q => simpa [scanFrom, hgrow, Place.afterAll] using ih.2 q (w ++ [c]) place (hp.grow hgrow)
    | none =>
      have hnone : ∀ d ∈ (c :: cs).head?, p.grow d = none := fun d hd => Option.some.inj hd ▸ hgrow
      cases hkind : p.kind? with
      | none =>
        simp only [scanFrom, hgrow, hkind]
        exact .of_kind_none hp hkind hnone
      | some kind =>
        rw [scanFrom_of_grow_none hgrow hkind]
        exact .of_holds hp hkind hnone (hfirst _)

theorem scanned_scan (text : String) : Scanned ⟨1, 1⟩ text.toList (scan text) := (scanned_scanFrom _).1 _

/-- **Scanning finds the tokens of a text**, and fails exactly if it has none. -/
theorem scan_eq_iff (text : String) (ts : List Token) :
    scan text = ⟨ts, none⟩ ↔ Tokenized ⟨1, 1⟩ text.toList ts := by
  refine ⟨fun h => ?_, Tokenized.scanFrom⟩
  have hscanned := scanned_scan text
  rw [h] at hscanned
  exact hscanned.tokenized rfl

/-- The text of a token, by itself, is that token and nothing else. -/
theorem Lexeme.scan_eq {text : String} {kind : TokenKind} (h : Lexeme text.toList kind) :
    scan text = ⟨[⟨kind, ⟨1, 1⟩⟩], none⟩ := by
  refine (scan_eq_iff _ _).mpr ?_
  rw [← List.append_nil text.toList]
  refine .token h (fun v _ _ hbegins => ?_) (.nil _)
  rw [List.append_nil] at hbegins
  exact hbegins.length_le

end TensorEquations
