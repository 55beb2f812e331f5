import TensorEquations.Proofs.Scalar.Constructor
import TensorEquations.Proofs.Scalar.Formula.Harmless
import TensorEquations.Proofs.Scalar.Interpretation

/-!
# Constructor texts are unreadable at worst

The constructor text of any scalar stands for a scalar or for nothing, whatever the names of its symbols, the
sizes of its integers and its decimals are: its reading never divides by zero and never asks for a member.

* `IsEscaped` — characters between quotation marks, of which none is the closing one.
* `IsPiece` — characters that may stand as an argument and keep the words of the whole harmless.
* `IsPiece.integer`, `IsPiece.word`, `IsPiece.quotation`, `IsPiece.call` — the pieces of constructor texts.
* `Scalar.ofText_constructor_fault` — **the constructor text of a scalar is unreadable at worst.**
-/

namespace TensorEquations

namespace Formula

/-! ## One word after another -/

theorem GivesHarmless.nil : GivesHarmless [] := by
  intro bound words hwords
  obtain rfl : words = [] := by cases bound <;> exact (Option.some.inj hwords).symm
  exact .nil

theorem GivesHarmless.space {cs : List Char} (h : GivesHarmless cs) : GivesHarmless (' ' :: cs) := by
  intro bound words hwords
  cases bound with
  | zero => cases hwords
  | succ bound => exact h bound words (by rwa [lexemesFrom, if_pos (by decide)] at hwords)

section Words

variable {c : Char} {cs : List Char}

/-- A first word and the words behind it. -/
theorem lexemesFrom_eq_some (hc : c ∉ [' ', '\t', '\x0c', '#']) {bound : Nat} {words : List Lexeme}
    (h : lexemesFrom bound (c :: cs) = some words) : ∃ bound' first rest later,
    readLexeme (c :: cs) = some (first, rest) ∧ lexemesFrom bound' rest = some later ∧ words = first ++ later := by
  cases bound with
  | zero => cases h
  | succ bound =>
      rw [lexemesFrom_cons hc] at h
      obtain ⟨⟨first, rest⟩, hfirst, h⟩ := Option.bind_eq_some_iff.mp h
      obtain ⟨later, hlater, h⟩ := Option.bind_eq_some_iff.mp h
      exact ⟨bound, first, rest, later, hfirst, hlater, (Option.some.inj h).symm⟩

theorem GivesHarmless.word (hc : c ∉ [' ', '\t', '\x0c', '#']) {word : Lexeme} {rest : List Char}
    (hread : readLexeme (c :: cs) = some ([word], rest)) (hword : word.isPlain) (h : GivesHarmless rest) :
    GivesHarmless (c :: cs) := by
  intro bound words hwords
  obtain ⟨bound', first, rest', later, hread', hlater, rfl⟩ := lexemesFrom_eq_some hc hwords
  rw [hread] at hread'
  cases hread'
  exact .plain hword (h bound' later hlater)

theorem GivesHarmless.sign (hc : c ∈ signs.map Prod.fst) (h : GivesHarmless cs) : GivesHarmless (c :: cs) := by
  simp only [signs, List.map_cons, List.map_nil, List.mem_cons, List.not_mem_nil, or_false] at hc
  rcases hc with rfl | rfl | rfl | rfl
  · exact .word (by decide) rfl rfl h
  · exact .word (by decide) rfl rfl h
  · exact .word (by decide) rfl rfl h
  · exact .word (by decide) rfl rfl h

end Words

/-- Digits are a number, or there are too many of them. -/
theorem GivesHarmless.natural (n : Nat) {rest : List Char} (hrest : EndsArgument rest) (h : GivesHarmless rest) :
    GivesHarmless (Nat.toDigits 10 n ++ rest) := by
  by_cases hn : Text.isWritable n
  · obtain ⟨c, cs, hcs, hc⟩ := exists_toDigits_eq n
    have hread := readLexeme_toDigits (n := n) hrest
    rw [if_pos hn] at hread
    rw [hcs, List.cons_append] at hread ⊢
    exact .word (start_of_isDigit hc).2.2 hread rfl h
  · intro bound words hwords
    rw [lexemesFrom_toDigits (Bool.eq_false_iff.mpr hn) hrest] at hwords
    cases hwords

section Names

variable {name : String} {rest : List Char}

theorem GivesHarmless.letters (hname : IsFunction name)
    (hrest : ∀ c ∈ rest.head?, Text.isNamePart c = false ∧ isMark c = false) (h : GivesHarmless rest) :
    GivesHarmless (name.toList ++ rest) := by
  obtain ⟨c, cs, hcs⟩ := List.exists_cons_of_ne_nil hname.nonempty
  have hread := readLexeme_letters hname.nonempty hname.isAlpha hrest
  rw [hcs, List.cons_append] at hread ⊢
  exact .word (notGap_of_isAlpha (hname.isAlpha c (by simp [hcs]))) hread rfl h

end Names

/-! ## Quotations -/

/-- Characters between quotation marks, of which none is the closing one: a backslash takes the next character
with it. -/
inductive IsEscaped (mark : Char) : List Char → Prop
  | nil : IsEscaped mark []
  | plain {c : Char} {cs : List Char} (hc : c ≠ mark ∧ c ≠ '\\') (h : IsEscaped mark cs) : IsEscaped mark (c :: cs)
  | pair (c : Char) {cs : List Char} (h : IsEscaped mark cs) : IsEscaped mark ('\\' :: c :: cs)

section Quotations

variable {mark : Char} {cs rest : List Char}

theorem IsEscaped.of_forall (h : ∀ c ∈ cs, c ≠ mark ∧ c ≠ '\\') : IsEscaped mark cs := by
  induction cs with
  | nil => exact .nil
  | cons c cs ih =>
      obtain ⟨hc, hcs⟩ := List.forall_mem_cons.mp h
      exact .plain hc (ih hcs)

theorem IsEscaped.append {ds : List Char} (h : IsEscaped mark cs) (hds : IsEscaped mark ds) :
    IsEscaped mark (cs ++ ds) := by
  induction h with
  | nil => exact hds
  | plain hc _ ih => exact .plain hc ih
  | pair c _ ih => exact .pair c ih

theorem IsEscaped.flatMap {α : Type} {f : α → List Char} {xs : List α} (h : ∀ x ∈ xs, IsEscaped mark (f x)) :
    IsEscaped mark (xs.flatMap f) := by
  induction xs with
  | nil => exact .nil
  | cons x xs ih =>
      obtain ⟨hx, hxs⟩ := List.forall_mem_cons.mp h
      exact hx.append (ih hxs)

theorem ne_backslash_of_isMark (hmark : isMark mark) : mark ≠ '\\' := by
  rintro rfl
  exact absurd hmark (by decide)

/-- The closing mark is found. -/
theorem spanQuoted_escaped (hmark : mark ≠ '\\') (h : IsEscaped mark cs) :
    spanQuoted [mark] (cs ++ mark :: rest) = some (cs, rest) := by
  induction h with
  | nil => exact spanQuoted_append hmark rest (by simp)
  | @plain c cs hc _ ih =>
      rw [List.cons_append, spanQuoted.eq_def]
      split
      · rename_i heq
        cases heq
      · rename_i heq
        exact absurd (List.cons.inj heq).1 hc.2
      · rename_i heq
        exact absurd (List.cons.inj heq).1 hc.2
      · rename_i heq
        cases heq
        simp [ih, Ne.symm hc.1]
  | pair c _ ih => simp [spanQuoted, ih]

/-- No three marks stand in a row at the start of a quotation. -/
theorem isPrefixOf_triple (hmark : mark ≠ '\\') (h : IsEscaped mark cs) (hrest : rest.head? ≠ some mark) :
    [mark, mark, mark].isPrefixOf (mark :: (cs ++ mark :: rest)) = false := by
  cases h with
  | nil =>
      cases rest with
      | nil => simp
      | cons d ds =>
          have hd : mark ≠ d := fun heq => hrest (congrArg some heq.symm)
          simp [List.isPrefixOf, hd]
  | plain hc _ => simp [List.isPrefixOf, Ne.symm hc.1]
  | pair c _ => simp [List.isPrefixOf, hmark]

theorem readLexeme_quotation (hmark : isMark mark) (h : IsEscaped mark cs) (hrest : rest.head? ≠ some mark)
    {first : List Lexeme} {rest' : List Char}
    (hread : readLexeme (mark :: (cs ++ mark :: rest)) = some (first, rest')) :
    ∃ text, first = [.quoted text] ∧ rest' = rest := by
  have hslash := ne_backslash_of_isMark hmark
  have hstart : Text.isNameStart mark = false := by
    simp only [isMark, Bool.or_eq_true, decide_eq_true_eq] at hmark
    rcases hmark with rfl | rfl <;> decide
  simp only [readLexeme, hstart, Bool.false_eq_true, if_false, hmark, if_true, readQuoted,
    isPrefixOf_triple hslash h hrest, List.length_singleton, List.drop_succ_cons, List.drop_zero,
    spanQuoted_escaped hslash h, Option.bind_some, Option.map_map] at hread
  obtain ⟨text, -, heq⟩ := Option.map_eq_some_iff.mp hread
  cases heq
  exact ⟨_, rfl, rfl⟩

/-- **A quotation as the first argument of a call**, unless the call is a quotient. -/
theorem GivesHarmless.quotation {name : String} (hname : IsFunction name) (hne : name ≠ "Rational")
    (hmark : isMark mark) (hcs : IsEscaped mark cs) (hrest : rest.head? ≠ some mark) (h : GivesHarmless rest) :
    GivesHarmless (name.toList ++ '(' :: mark :: (cs ++ mark :: rest)) := by
  intro bound words hwords
  have hgap : mark ∉ [' ', '\t', '\x0c', '#'] := by
    simp only [isMark, Bool.or_eq_true, decide_eq_true_eq] at hmark
    rcases hmark with rfl | rfl <;> decide
  obtain ⟨c, ds, hds⟩ := List.exists_cons_of_ne_nil hname.nonempty
  have hletters : readLexeme (name.toList ++ '(' :: mark :: (cs ++ mark :: rest)) =
      some ([.name name], '(' :: mark :: (cs ++ mark :: rest)) :=
    readLexeme_function hname.nonempty hname.isAlpha
  rw [hds, List.cons_append] at hletters hwords
  obtain ⟨_, _, _, inside, hread, hinside, rfl⟩ :=
    lexemesFrom_eq_some (notGap_of_isAlpha (hname.isAlpha c (by simp [hds]))) hwords
  rw [hletters] at hread
  cases hread
  obtain ⟨_, _, _, quotation, hread, hquotation, rfl⟩ := lexemesFrom_eq_some (by decide) hinside
  cases hread
  obtain ⟨_, _, _, later, hread, hlater, rfl⟩ := lexemesFrom_eq_some hgap hquotation
  obtain ⟨text, rfl, rfl⟩ := readLexeme_quotation hmark hcs hrest hread
  exact .quoted hne text (h _ later hlater)

end Quotations

/-! ## Pieces -/

/-- Characters that may stand as an argument and keep the words of the whole harmless. -/
structure IsPiece (cs : List Char) : Prop where
  oneLine : '\n' ∉ cs
  unpadded : (∀ c ∈ cs.head?, Text.isBlank c = false) ∧ ∀ c ∈ cs.getLast?, Text.isBlank c = false
  harmless : ∀ {rest : List Char}, EndsArgument rest → GivesHarmless rest → GivesHarmless (cs ++ rest)

theorem IsPiece.natural (n : Nat) : IsPiece (toString n).toList := by
  rw [toList_toString_nat]
  exact {
    oneLine := not_mem_toDigits (by decide) n
    unpadded := ⟨fun c hc => isBlank_of_mem_toDigits (List.mem_of_mem_head? hc),
      fun c hc => isBlank_of_mem_toDigits (List.mem_of_mem_getLast? hc)⟩
    harmless := .natural n }

theorem IsPiece.negative (n : Nat) : IsPiece ('-' :: (toString n).toList) := by
  rw [toList_toString_nat]
  exact {
    oneLine := by simpa using not_mem_toDigits (c := '\n') (by decide) n
    unpadded := by
      obtain ⟨d, ds, hds⟩ := List.exists_cons_of_ne_nil (Nat.toDigits_ne_nil (b := 10) (n := n))
      refine ⟨by simp; decide, fun c hc => isBlank_of_mem_toDigits (n := n) (List.mem_of_mem_getLast? ?_)⟩
      rwa [hds, List.getLast?_cons_cons, ← hds] at hc
    harmless := fun hrest h => .sign (by decide) (.natural n hrest h) }

/-- An integer of any size. -/
theorem IsPiece.integer (n : Int) : IsPiece (toString n).toList := by
  cases n with
  | ofNat m => exact .natural m
  | negSucc m =>
      have htext : (toString (Int.negSucc m)).toList = '-' :: (toString (m + 1)).toList := String.toList_append
      rw [htext]
      exact .negative (m + 1)

theorem EndsArgument.head {rest : List Char} (h : EndsArgument rest) :
    ∀ c ∈ rest.head?, Text.isNamePart c = false ∧ isMark c = false := by
  cases h with
  | nil => simp
  | comma rest => simp; decide
  | closing rest => simp; decide

/-- A word of letters. -/
theorem IsPiece.word {name : String} (hname : IsFunction name) : IsPiece name.toList where
  oneLine hc := absurd (hname.isAlpha _ hc) (by decide)
  unpadded := by
    have hblank : ∀ c ∈ name.toList, Text.isBlank c = false := fun c hc =>
      isBlank_of_isNameLater (by simp [isNameLater, Char.isAlphanum, hname.isAlpha c hc])
    exact ⟨fun c hc => hblank c (List.mem_of_mem_head? hc), fun c hc => hblank c (List.mem_of_mem_getLast? hc)⟩
  harmless hrest h := .letters hname hrest.head h

/-- Pieces with commas between them. -/
theorem IsPiece.separated : ∀ {texts : List String}, (∀ text ∈ texts, IsPiece text.toList) → texts ≠ [] →
    '\n' ∉ (", ".intercalate texts).toList ∧ ∀ {rest : List Char}, EndsArgument rest → GivesHarmless rest →
      GivesHarmless ((", ".intercalate texts).toList ++ rest)
  | [text], h, _ => by
    rw [String.intercalate_singleton]
    have htext := h text (by simp)
    exact ⟨htext.oneLine, htext.harmless⟩
  | text :: next :: texts, h, _ => by
    obtain ⟨htext, htexts⟩ := List.forall_mem_cons.mp h
    obtain ⟨hline, hlater⟩ := IsPiece.separated htexts (List.cons_ne_nil next texts)
    have hsplit : (", ".intercalate (text :: next :: texts)).toList =
        text.toList ++ ',' :: ' ' :: (", ".intercalate (next :: texts)).toList := by
      rw [String.intercalate_cons_cons, String.toList_append, String.toList_append, List.append_assoc]
      rfl
    rw [hsplit]
    refine ⟨?_, fun {rest} hrest h => ?_⟩
    · simp only [List.mem_append, List.mem_cons, htext.oneLine, hline, or_false, false_or]
      decide
    rw [List.append_assoc]
    exact htext.harmless (.comma _) (.sign (by decide) (.space (hlater hrest h)))

/-- **A call whose arguments are pieces is a piece.** -/
theorem IsPiece.call {function : String} (hname : IsFunction function) {texts : List String} (hne : texts ≠ [])
    (h : ∀ text ∈ texts, IsPiece text.toList) : IsPiece (callText function texts).toList := by
  obtain ⟨hline, hlater⟩ := IsPiece.separated h hne
  have htext : (callText function texts).toList =
      function.toList ++ '(' :: ((", ".intercalate texts).toList ++ [')']) := by
    simp [callText]
  rw [htext]
  refine ⟨oneLine_call hname hline, unpadded_call hname _, fun {rest} hrest h => ?_⟩
  simp only [List.append_assoc, List.cons_append, List.nil_append]
  exact .letters hname (by simp; decide)
    (.sign (by decide) (hlater (.closing _) (.sign (by decide) h)))

/-- **A call of which a quotation is the first argument is a piece**, unless the call is a quotient. -/
theorem IsPiece.quotation {function : String} (hname : IsFunction function) (hne : function ≠ "Rational")
    {mark : Char} (hmark : isMark mark) {cs : List Char} (hcs : IsEscaped mark cs) (hline : '\n' ∉ cs)
    {tail : List Char} (hhead : ∀ rest, (tail ++ ')' :: rest).head? ≠ some mark) (htail : '\n' ∉ tail)
    (hlater : ∀ {rest : List Char}, EndsArgument rest → GivesHarmless rest → GivesHarmless (tail ++ rest)) :
    IsPiece (function.toList ++ '(' :: (mark :: (cs ++ mark :: tail) ++ [')'])) := by
  have hmarkline : '\n' ≠ mark := fun heq => absurd hmark (by rw [← heq]; decide)
  refine ⟨oneLine_call hname (by simp [hmarkline, hline, htail]), unpadded_call hname _,
    fun {rest} hrest h => ?_⟩
  simp only [List.append_assoc, List.cons_append, List.nil_append]
  exact .quotation hname hne hmark hcs (hhead rest) (hlater (.closing _) (.sign (by decide) h))

theorem IsPiece.givesHarmless {text : String} (h : IsPiece text.toList) : GivesHarmless (body text) := by
  rw [body, filter_newline h.oneLine, trimChars_eq h.unpadded.1 h.unpadded.2]
  simpa using h.harmless .nil .nil

end Formula

/-! ## Names and decimals in quotation marks -/

namespace Text

theorem exists_digitChar_of_mem_toDigits {c : Char} {n : Nat} (h : c ∈ Nat.toDigits 16 n) :
    ∃ m < 16, c = m.digitChar := by
  induction n using Nat.strongRecOn with
  | ind n ih =>
      rcases Nat.lt_or_ge n 16 with hn | hn
      · rw [Nat.toDigits_of_lt_base hn, List.mem_singleton] at h
        exact ⟨n, hn, h⟩
      · rw [Nat.toDigits_of_base_le (by decide) hn, List.mem_append, List.mem_singleton] at h
        rcases h with h | rfl
        · exact ih (n / 16) (by omega) h
        · exact ⟨n % 16, Nat.mod_lt n (by decide), rfl⟩

theorem exists_digitChar_of_mem_hexDigits {c : Char} {width n : Nat} (h : c ∈ hexDigits width n) :
    ∃ m < 16, c = m.digitChar := by
  rcases List.mem_append.mp h with h | h
  · exact ⟨0, by decide, List.eq_of_mem_replicate h⟩
  · exact exists_digitChar_of_mem_toDigits h

variable {mark : Char}

/-- A character inside quotation marks does not close them, and it does not break the line. -/
theorem escapeChar_spec (hmark : Formula.isMark mark) (c : Char) :
    Formula.IsEscaped mark (escapeChar mark c) ∧ '\n' ∉ escapeChar mark c := by
  have hmarks : mark = '\'' ∨ mark = '"' := by
    simpa only [Formula.isMark, Bool.or_eq_true, decide_eq_true_eq] using hmark
  have hdigit : ∀ m < 16, (m.digitChar ≠ mark ∧ m.digitChar ≠ '\\') ∧ m.digitChar ≠ '\n' := by
    rcases hmarks with rfl | rfl <;> decide
  have hhex : ∀ {width n}, ∀ d ∈ hexDigits width n, (d ≠ mark ∧ d ≠ '\\') ∧ d ≠ '\n' := by
    intro width n d hd
    obtain ⟨m, hm, rfl⟩ := exists_digitChar_of_mem_hexDigits hd
    exact hdigit m hm
  have hdigits : ∀ width n, Formula.IsEscaped mark (hexDigits width n) ∧ '\n' ∉ hexDigits width n :=
    fun width n => ⟨.of_forall fun d hd => (hhex d hd).1, fun hd => (hhex _ hd).2 rfl⟩
  unfold escapeChar
  split
  · rename_i hc
    simp only [Bool.or_eq_true, decide_eq_true_eq] at hc
    refine ⟨.pair c .nil, ?_⟩
    rcases hc with rfl | rfl
    · rcases hmarks with rfl | rfl <;> decide
    · decide
  rename_i hc
  simp only [Bool.or_eq_true, decide_eq_true_eq, not_or] at hc
  split
  · exact ⟨.pair 'n' .nil, by decide⟩
  rename_i hline
  repeat' split
  · exact ⟨.pair 'r' .nil, by decide⟩
  · exact ⟨.pair 't' .nil, by decide⟩
  · exact ⟨.plain hc .nil, by simpa using Ne.symm hline⟩
  · exact ⟨.pair 'x' (hdigits _ _).1, by simpa using (hdigits _ _).2⟩
  · exact ⟨.pair 'u' (hdigits _ _).1, by simpa using (hdigits _ _).2⟩
  · exact ⟨.pair 'U' (hdigits _ _).1, by simpa using (hdigits _ _).2⟩

end Text

open Formula (IsPiece IsFunction IsEscaped EndsArgument GivesHarmless)

/-- A symbol of any name. -/
theorem isPiece_symbol (name : String) : IsPiece (symbolConstructor name).toList := by
  have hmark : Formula.isMark (Text.quoteMark name.toList) := by
    unfold Text.quoteMark
    split <;> rfl
  have htext : (symbolConstructor name).toList = "Symbol".toList ++ '(' ::
      (Text.quoteMark name.toList :: (name.toList.flatMap (Text.escapeChar (Text.quoteMark name.toList)) ++
        Text.quoteMark name.toList :: []) ++ [')']) := by
    simp [symbolConstructor, callText, Text.quote]
  rw [htext]
  refine .quotation (isFunction_of_mem (by simp)) (by decide) hmark
    (.flatMap fun c _ => (Text.escapeChar_spec hmark c).1) ?_ ?_ (by simp) fun _ h => h
  · rw [List.mem_flatMap]
    rintro ⟨c, -, hc⟩
    exact (Text.escapeChar_spec hmark c).2 hc
  · intro rest heq
    rw [← Option.some.inj heq] at hmark
    exact absurd hmark (by decide)

/-- The characters of decimals. -/
def isFigure (c : Char) : Bool := c.isDigit || ['.', '-', '+', 'e'].contains c

namespace Number

theorem isFigure_of_mem_toDigits {n : Nat} {c : Char} (h : c ∈ Nat.toDigits 10 n) : isFigure c := by
  rw [isFigure, Formula.isDigit_of_mem_toDigits h, Bool.true_or]

theorem isFigure_of_mem_toString (e : Int) : ∀ c ∈ (toString e).toList, isFigure c := by
  cases e with
  | ofNat n =>
      have htext : (toString (Int.ofNat n)).toList = Nat.toDigits 10 n := Formula.toList_toString_nat n
      rw [htext]
      exact fun c hc => isFigure_of_mem_toDigits hc
  | negSucc n =>
      have htext : (toString (Int.negSucc n)).toList = '-' :: Nat.toDigits 10 (n + 1) := by
        rw [← Formula.toList_toString_nat]
        exact String.toList_append
      rw [htext]
      exact List.forall_mem_cons.mpr ⟨by decide, fun c hc => isFigure_of_mem_toDigits hc⟩

theorem isFigure_of_mem_dropZeros {cs : List Char} (h : ∀ c ∈ cs, isFigure c) : ∀ c ∈ dropZeros cs, isFigure c := by
  have hkept : ∀ c ∈ (cs.reverse.dropWhile (· == '0')).reverse, isFigure c := fun c hc =>
    h c (List.mem_reverse.mp ((List.dropWhile_sublist _).mem (List.mem_reverse.mp hc)))
  unfold dropZeros
  split
  · simp only [List.forall_mem_singleton]
    decide
  · split
    · exact List.forall_mem_append.mpr ⟨hkept, by simp only [List.forall_mem_singleton]; decide⟩
    · exact hkept

/-- **A decimal is written in digits, signs, a point and a mark.** -/
theorem isFigure_of_mem_decimalText (q : Rat) : ∀ c ∈ (decimalText .full q).toList, isFigure c := by
  have hpointed : ∀ front back : List Char, (∀ c ∈ front, isFigure c) → (∀ c ∈ back, isFigure c) →
      ∀ c ∈ (DecimalFormat.full.finish (front ++ '.' :: back)), isFigure c := fun front back hfront hback =>
    isFigure_of_mem_dropZeros (List.forall_mem_append.mpr ⟨hfront, List.forall_mem_cons.mpr ⟨by decide, hback⟩⟩)
  have hsign : ∀ c ∈ (if q.num < 0 then "-" else "").toList, isFigure c := by
    split <;> exact List.all_eq_true.mp (by decide)
  unfold decimalText
  split
  · exact List.all_eq_true.mp (by decide)
  generalize significantDigits DecimalFormat.full.digits q.num.natAbs q.den = found
  obtain ⟨m, e⟩ := found
  have hdigits : ∀ c ∈ Nat.toDigits 10 m, isFigure c := fun c hc => isFigure_of_mem_toDigits hc
  dsimp only
  split
  · have hshown : ∀ c ∈ (if e < 0 then List.replicate (-e).toNat '0' ++ Nat.toDigits 10 m
        else Nat.toDigits 10 m), isFigure c := by
      split
      · exact List.forall_mem_append.mpr ⟨fun c hc => by rw [List.eq_of_mem_replicate hc]; decide, hdigits⟩
      · exact hdigits
    rw [String.toList_append, String.toList_ofList]
    exact List.forall_mem_append.mpr ⟨hsign, hpointed _ _ (fun c hc => hshown c (List.mem_of_mem_take hc))
      (fun c hc => hshown c (List.mem_of_mem_drop hc))⟩
  · have hmark : ∀ c ∈ (if 0 ≤ e then DecimalFormat.full.mark ++ "+" else DecimalFormat.full.mark).toList,
        isFigure c := by
      split <;> exact List.all_eq_true.mp (by decide)
    simp only [String.toList_append, String.toList_ofList, List.forall_mem_append]
    exact ⟨⟨⟨hsign, hpointed _ _ (fun c hc => hdigits c (List.mem_of_mem_take hc))
      (fun c hc => hdigits c (List.mem_of_mem_drop hc))⟩, hmark⟩, isFigure_of_mem_toString e⟩

end Number

/-! ## Scalars -/

theorem isPiece_precision {rest : List Char} (hrest : EndsArgument rest) (h : GivesHarmless rest) :
    GivesHarmless (", precision=53".toList ++ rest) := by
  have hvalue : GivesHarmless (Nat.toDigits 10 53 ++ rest) := .natural 53 hrest h
  have hequals : GivesHarmless ('=' :: (Nat.toDigits 10 53 ++ rest)) := .word (by decide) rfl rfl hvalue
  have hname : IsFunction "precision" := ⟨by decide, by decide, by decide⟩
  exact .sign (by decide) (.space (.letters hname (by simp; decide) hequals))

/-- A decimal. -/
theorem isPiece_decimal (q : Rat) : IsPiece (Number.decimal q).constructor.toList := by
  have hfigures := Number.isFigure_of_mem_decimalText q
  have htext : (Number.decimal q).constructor.toList = "Float".toList ++ '(' ::
      ('\'' :: ((Number.decimalText .full q).toList ++ '\'' :: ", precision=53".toList) ++ [')']) := by
    simp [Number.constructor]
  rw [htext]
  refine .quotation ⟨by decide, by decide, by decide⟩ (by decide) (by decide) (.of_forall fun c hc => ?_) ?_
    (by simp) (by decide) isPiece_precision
  · have hfigure := hfigures c hc
    exact ⟨by rintro rfl; exact absurd hfigure (by decide), by rintro rfl; exact absurd hfigure (by decide)⟩
  · exact fun hc => absurd (hfigures _ hc) (by decide)

/-- **A number of any kind.** -/
theorem isPiece_number (c : Number) : IsPiece c.constructor.toList := by
  cases c with
  | exact q =>
      by_cases hden : q.den = 1
      · have htext : (Number.exact q).constructor = callText "Integer" [toString q.num] := by
          rw [Number.constructor, if_pos hden, callText, String.intercalate_singleton]
          rfl
        rw [htext]
        exact .call (isFunction_of_mem (by simp)) (by simp) (by simpa using .integer q.num)
      · have htext : (Number.exact q).constructor = callText "Rational" [toString q.num, toString q.den] := by
          rw [Number.constructor, if_neg hden, callText, String.intercalate_cons_cons, String.intercalate_singleton]
          simp only [String.append_assoc]
          rfl
        rw [htext]
        refine .call (isFunction_of_mem (by simp)) (by simp) ?_
        exact List.forall_mem_cons.mpr ⟨.integer q.num, List.forall_mem_singleton.mpr (.natural q.den)⟩
  | decimal q => exact isPiece_decimal q
  | infinite m =>
      have hword : IsFunction "zoo" := ⟨by decide, by decide, by decide⟩
      exact .word hword
  | undefined =>
      have hword : IsFunction "nan" := ⟨by decide, by decide, by decide⟩
      exact .word hword

/-- A power of a piece. -/
theorem isPiece_factor {f : Factor String} (h : IsPiece f.base.toList) : IsPiece f.constructor.toList := by
  unfold Factor.constructor
  split
  · exact h
  · have hexponent : s!"Integer({f.exponent})" = (Number.exact f.exponent).constructor := by
      simp [Number.constructor]
    rw [hexponent]
    refine .call (isFunction_of_mem (by simp)) (by simp) ?_
    simpa using ⟨h, isPiece_number (.exact f.exponent)⟩

theorem isPiece_of_mem_arguments {c : Number} {text : String} (h : text ∈ c.arguments) : IsPiece text.toList := by
  unfold Number.arguments at h
  split_ifs at h
  · cases h
  · obtain rfl := List.mem_singleton.mp h
    exact isPiece_number _
  · simp only [List.mem_cons, List.not_mem_nil, or_false] at h
    rcases h with rfl | rfl <;> exact isPiece_number _
  · obtain rfl := List.mem_singleton.mp h
    exact isPiece_number _

/-- A product of powers of pieces. -/
theorem isPiece_term {t : Term String} (h : ∀ f ∈ t.factors, IsPiece f.base.toList) :
    IsPiece t.constructor.toList := by
  have hspelled : ∀ f ∈ t.spelled.factors, IsPiece f.base.toList := by
    unfold Term.spelled
    split
    · exact List.forall_mem_cons.mpr ⟨isPiece_number (.infinite 1), h⟩
    · exact h
  unfold Term.constructor
  dsimp only
  split
  · exact isPiece_number _
  · rename_i hfactors
    have hall : ∀ text ∈ t.spelled.coefficient.arguments ++ t.spelled.factors.map Factor.constructor,
        IsPiece text.toList := by
      refine List.forall_mem_append.mpr ⟨fun text ht => isPiece_of_mem_arguments ht, ?_⟩
      exact List.forall_mem_map.mpr fun f hf => isPiece_factor (hspelled f hf)
    split
    · rename_i one heq
      exact hall one (by rw [heq]; exact List.mem_singleton_self one)
    · refine .call (isFunction_of_mem (by simp)) ?_ hall
      rw [ne_eq, List.append_eq_nil_iff, List.map_eq_nil_iff]
      exact fun hnil => hfactors hnil.2

/-- A sum of products of powers of pieces. -/
theorem isPiece_sum {ts : List (Term String)} (h : ∀ t ∈ ts, ∀ f ∈ t.factors, IsPiece f.base.toList) :
    IsPiece (sumConstructor ts).toList := by
  have hterms : ∀ t ∈ displayed ts, IsPiece t.constructor.toList := fun t ht =>
    isPiece_term (h t ((displayed_perm ts).mem_iff.mp ht))
  unfold sumConstructor
  split
  · exact isPiece_number 0
  · rename_i t heq
    exact hterms t (by rw [heq]; exact List.mem_singleton_self t)
  · rename_i hnil _
    exact .call (isFunction_of_mem (by simp)) (by simpa using hnil) (List.forall_mem_map.mpr hterms)

theorem Base.isPiece_constructor (b : Base) : IsPiece b.constructor.toList := by
  induction b using Base.induction with
  | symbol name => exact isPiece_symbol name
  | group ts ih =>
      rw [Base.constructor_group]
      refine isPiece_sum (List.forall_mem_map.mpr fun t ht => ?_)
      exact List.forall_mem_map.mpr fun f hf => ih t ht f hf

theorem Scalar.isPiece_constructor (s : Scalar) : IsPiece s.constructor.toList := by
  rw [Scalar.constructor_eq]
  refine isPiece_sum (List.forall_mem_map.mpr fun t _ => ?_)
  exact List.forall_mem_map.mpr fun f _ => f.base.isPiece_constructor

/-- **The constructor text of a scalar stands for a scalar or is unreadable**: no scalar has a text whose reading
divides by zero or asks for a member. -/
theorem Scalar.ofText_constructor_fault (s : Scalar) : Formula.IsUnreadableAtWorst (ofText s.constructor) :=
  ofText_fault s.isPiece_constructor.givesHarmless

end TensorEquations
