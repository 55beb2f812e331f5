import TensorEquations.Proofs.Scalar.Normal
import TensorEquations.Scalar.Formula.Lexeme

/-!
# Words of constructor texts

The names, integers and quoted names of a constructor text are read as the words that they are.

* `readNumber_toDigits` — **an integer with at most as many digits as may be written is read back.**
* `readQuoted_name` — **a quoted name is read back.**
* `Splits` — how characters are split into words.
-/

namespace TensorEquations

/-! ## Names -/

theorem isNameLater_bounds {c : Char} (h : isNameLater c) : 32 < c.toNat ∧ c.toNat < 127 := by
  simp only [isNameLater, Char.isAlphanum, Char.isAlpha, Char.isUpper, Char.isLower, Char.isDigit,
    Bool.or_eq_true, Bool.and_eq_true, decide_eq_true_eq, UInt32.le_iff_toNat_le, ge_iff_le] at h
  change ((((65 ≤ c.toNat ∧ c.toNat ≤ 90) ∨ (97 ≤ c.toNat ∧ c.toNat ≤ 122)) ∨
    (48 ≤ c.toNat ∧ c.toNat ≤ 57)) ∨ c = '_') ∨ c = '\'' at h
  rcases h with ((((h | h) | h) | rfl) | rfl)
  · omega
  · omega
  · omega
  · decide
  · decide

theorem IsName.isNameLater {name : String} (h : IsName name) : ∀ c ∈ name.toList, isNameLater c := by
  obtain ⟨c, cs, hcs, hfirst, hlater⟩ := h
  rw [hcs]
  refine List.forall_mem_cons.mpr ⟨?_, hlater⟩
  simp only [isNameFirst, TensorEquations.isNameLater, Char.isAlphanum, Bool.or_eq_true] at hfirst ⊢
  exact .inl (hfirst.imp_left .inl)

/-! ## Integers -/

namespace Text

theorem isWritable_iff {n : Nat} : isWritable n = true ↔ n < 10 ^ digitLimit := by
  rw [isWritable, Bool.or_eq_true, decide_eq_true_eq, decide_eq_true_eq]
  generalize digitLimit = k
  refine ⟨fun h => h.elim (fun hlog => ?_) id, .inr⟩
  rcases Nat.eq_zero_or_pos n with rfl | hn
  · exact Nat.pow_pos (by decide)
  · calc n < 2 ^ (3 * k) := (Nat.log2_lt (by omega)).mp hlog
      _ = 8 ^ k := by rw [Nat.pow_mul]
      _ ≤ 10 ^ k := Nat.pow_le_pow_left (by decide) k

theorem digitsValue_eq {ds : List Char} (h : ∀ c ∈ ds, c.isDigit) :
    digitsValue ds = Nat.ofDigitChars 10 ds 0 := by
  unfold digitsValue Nat.ofDigitChars
  generalize 0 = n
  induction ds generalizing n with
  | nil => rfl
  | cons d ds ih =>
      obtain ⟨hd, hds⟩ := List.forall_mem_cons.mp h
      have hvalue : digitValue? d = some (d.toNat - '0'.toNat) := if_pos hd
      rw [List.filterMap_cons_some hvalue, List.foldl_cons, List.foldl_cons]
      exact ih hds _

theorem toDigits_head {n : Nat} (h : n ≠ 0) : (Nat.toDigits 10 n).head? ≠ some '0' := by
  induction n using Nat.strongRecOn with
  | ind n ih =>
      rcases Nat.lt_or_ge n 10 with hn | hn
      · rw [Nat.toDigits_of_lt_base hn]
        have hdigits : ∀ m < 10, m ≠ 0 → m.digitChar ≠ '0' := by decide
        simpa using hdigits n hn h
      · have hfront := Nat.toDigits_ne_nil (b := 10) (n := n / 10)
        rw [Nat.toDigits_of_base_le (by decide) hn, List.head?_append_of_ne_nil _ hfront]
        exact ih (n / 10) (by omega) (by omega)

end Text

namespace Formula

/-- What may stand behind an argument. -/
inductive EndsArgument : List Char → Prop
  | nil : EndsArgument []
  | comma (rest : List Char) : EndsArgument (',' :: rest)
  | closing (rest : List Char) : EndsArgument (')' :: rest)

theorem spanDigits_cons {c : Char} (hc : c.isDigit) (cs : List Char) :
    spanDigits Char.isDigit (c :: cs) =
      (c :: (spanDigits Char.isDigit cs).1, (spanDigits Char.isDigit cs).2) := by
  have hunderscore : c ≠ '_' := by
    rintro rfl
    exact absurd hc (by decide)
  rw [spanDigits.eq_def]
  split
  · rename_i heq
    cases heq
  · rename_i heq
    exact absurd (List.cons.inj heq).1 hunderscore
  · rename_i heq
    exact absurd (List.cons.inj heq).1 hunderscore
  · rename_i heq
    cases heq
    simp only [hc, if_true]

/-- The digits at the end of an argument. -/
theorem spanDigits_append {rest : List Char} (hrest : EndsArgument rest) : ∀ {ds : List Char},
    (∀ c ∈ ds, c.isDigit) → spanDigits Char.isDigit (ds ++ rest) = (ds, rest)
  | [], _ => by cases hrest <;> simp [spanDigits]
  | c :: ds, h => by
    obtain ⟨hc, hds⟩ := List.forall_mem_cons.mp h
    rw [List.cons_append, spanDigits_cons hc, spanDigits_append hrest hds]

section Digits

variable {n : Nat} {rest : List Char}

theorem isDigit_of_mem_toDigits {c : Char} (h : c ∈ Nat.toDigits 10 n) : c.isDigit :=
  Nat.isDigit_of_mem_toDigits (by decide) (by decide) h

theorem exists_toDigits_eq (n : Nat) : ∃ c cs, Nat.toDigits 10 n = c :: cs ∧ c.isDigit := by
  obtain ⟨c, cs, hcs⟩ := List.exists_cons_of_ne_nil (Nat.toDigits_ne_nil (b := 10) (n := n))
  exact ⟨c, cs, hcs, isDigit_of_mem_toDigits (by rw [hcs]; exact List.mem_cons_self)⟩

theorem spanNumeral_toDigits (hrest : EndsArgument rest) :
    spanNumeral (Nat.toDigits 10 n ++ rest) = (Nat.toDigits 10 n, rest) := by
  obtain ⟨c, cs, hcs, hc⟩ := exists_toDigits_eq n
  have hspan := spanDigits_append hrest fun c => isDigit_of_mem_toDigits (n := n)
  rw [← hspan, hcs, List.cons_append, spanNumeral]
  exact if_pos hc

/-- An integer is not taken for one in another base. -/
theorem spanBased?_toDigits (hrest : EndsArgument rest) : spanBased? (Nat.toDigits 10 n ++ rest) = none := by
  rcases Nat.eq_zero_or_pos n with rfl | hn
  · cases hrest <;> rfl
  · obtain ⟨c, cs, hcs, _⟩ := exists_toDigits_eq n
    have hc : c ≠ '0' := by
      rintro rfl
      exact Text.toDigits_head (by omega) (congrArg List.head? hcs)
    rw [hcs, spanBased?.eq_def]
    split
    · rename_i heq
      exact absurd (List.cons.inj heq).1 hc
    · rfl

/-- **A written integer is read back**, unless it has too many digits. -/
theorem readNumber_toDigits (hrest : EndsArgument rest) : readNumber (Nat.toDigits 10 n ++ rest) =
    if Text.isWritable n then some (.exact n, rest) else none := by
  have hvalue : Text.digitsValue (Nat.toDigits 10 n) = n := by
    rw [Text.digitsValue_eq fun c => isDigit_of_mem_toDigits, Nat.ofDigitChars_ten_toDigits]
  have hlength : Text.digitLimit < (Nat.toDigits 10 n).length ↔ ¬ Text.isWritable n := by
    rw [Text.isWritable_iff, ← Nat.length_toDigits_le_iff (by decide) (by decide), Nat.not_le]
  have hzero : ((Nat.toDigits 10 n).head? = some '0' && (Nat.toDigits 10 n).any (· != '0')) = false := by
    rcases Nat.eq_zero_or_pos n with rfl | hn
    · decide
    · simp [Text.toDigits_head (n := n) (by omega)]
  have hempty : (Nat.toDigits 10 n).isEmpty = false := by simp [Nat.toDigits_ne_nil]
  unfold readNumber
  rw [spanBased?_toDigits hrest, spanNumeral_toDigits hrest]
  simp only [hempty, Bool.false_and, Bool.false_eq_true, if_false, hlength, hzero, hvalue, ite_not]
  cases hrest <;> rfl

end Digits

/-! ## Quoted names -/

theorem spanQuoted_append {mark : Char} (hmark : mark ≠ '\\') (rest : List Char) : ∀ {cs : List Char},
    (∀ c ∈ cs, c ≠ mark ∧ c ≠ '\\') → spanQuoted [mark] (cs ++ mark :: rest) = some (cs, rest)
  | [], _ => by
    rw [List.nil_append, spanQuoted.eq_def]
    split
    · rename_i heq
      cases heq
    · rename_i heq
      exact absurd (List.cons.inj heq).1 hmark
    · rename_i heq
      exact absurd (List.cons.inj heq).1 hmark
    · rename_i heq
      cases heq
      simp
  | c :: cs, h => by
    obtain ⟨⟨hc, hslash⟩, hcs⟩ := List.forall_mem_cons.mp h
    rw [List.cons_append, spanQuoted.eq_def]
    split
    · rename_i heq
      cases heq
    · rename_i heq
      exact absurd (List.cons.inj heq).1 hslash
    · rename_i heq
      exact absurd (List.cons.inj heq).1 hslash
    · rename_i heq
      cases heq
      simp [spanQuoted_append hmark rest hcs, Ne.symm hc]

theorem unescape_plain {cs : List Char} (h : ∀ c ∈ cs, c ≠ '\\') : Text.unescape cs = some cs := by
  unfold Text.unescape
  induction cs with
  | nil => rfl
  | cons c cs ih =>
      obtain ⟨hc, hcs⟩ := List.forall_mem_cons.mp h
      rw [List.length_cons, Text.unescapeFrom, if_neg hc, ih hcs]
      rfl

/-- Nothing in a name is escaped except for quotation marks. -/
theorem flatMap_escapeChar {mark : Char} {cs : List Char} (h : ∀ c ∈ cs, isNameLater c)
    (hplain : ∀ c ∈ cs, c ≠ mark ∧ c ≠ '\\') : cs.flatMap (Text.escapeChar mark) = cs := by
  rw [List.flatMap_congr (g := fun c => [c])]
  · exact List.flatMap_singleton' _
  · intro c hc
    obtain ⟨hne, hslash⟩ := hplain c hc
    obtain ⟨hlow, hhigh⟩ := isNameLater_bounds (h c hc)
    have hprintable : Text.isPrintable c = true := by
      simp only [Text.isPrintable, if_pos (show c.toNat < 128 by omega), Bool.and_eq_true, decide_eq_true_eq]
      omega
    have hcontrol : ∀ d : Char, d.toNat ≤ 32 → c ≠ d := by
      rintro d hd rfl
      omega
    simp [Text.escapeChar, hne, hslash, hprintable, hcontrol '\n' (by decide), hcontrol '\r' (by decide),
      hcontrol '\t' (by decide)]

/-- A name stands between single or double quotation marks as it is. -/
theorem quote_of_isName {name : String} (h : IsName name) : ∃ mark, isMark mark ∧
    (∀ c ∈ name.toList, c ≠ mark ∧ c ≠ '\\') ∧
    (Text.quote name).toList = mark :: (name.toList ++ [mark]) := by
  have hexcluded : ∀ c ∈ name.toList, c ≠ '"' ∧ c ≠ '\\' := fun c hc =>
    ⟨fun he => absurd (h.isNameLater c hc) (by rw [he]; decide),
      fun he => absurd (h.isNameLater c hc) (by rw [he]; decide)⟩
  have hmark : Text.quoteMark name.toList = '"' ∨
      (Text.quoteMark name.toList = '\'' ∧ '\'' ∉ name.toList) := by
    have hdouble : '"' ∉ name.toList := fun hc => (hexcluded _ hc).1 rfl
    by_cases hsingle : '\'' ∈ name.toList
    · exact .inl (by simp [Text.quoteMark, hsingle, hdouble])
    · exact .inr ⟨by simp [Text.quoteMark, hsingle], hsingle⟩
  have hplain : ∀ c ∈ name.toList, c ≠ Text.quoteMark name.toList ∧ c ≠ '\\' := by
    intro c hc
    refine ⟨?_, (hexcluded c hc).2⟩
    rcases hmark with hm | ⟨hm, hsingle⟩ <;> rw [hm]
    · exact (hexcluded c hc).1
    · exact fun he => hsingle (he ▸ hc)
  refine ⟨_, ?_, hplain, ?_⟩
  · rcases hmark with hm | ⟨hm, _⟩ <;> rw [hm] <;> rfl
  · rw [Text.quote, String.toList_ofList, flatMap_escapeChar h.isNameLater hplain]
    rfl

/-- **A quoted name is read back.** -/
theorem readQuoted_name {name : String} (h : IsName name) {mark : Char} (hmark : isMark mark)
    (hplain : ∀ c ∈ name.toList, c ≠ mark ∧ c ≠ '\\') (rest : List Char) :
    readQuoted false (mark :: (name.toList ++ mark :: rest)) = some (name, rest) := by
  have hslash : mark ≠ '\\' := by
    rintro rfl
    exact absurd hmark (by decide)
  have htriple : [mark, mark, mark].isPrefixOf (mark :: (name.toList ++ mark :: rest)) = false := by
    obtain ⟨c, cs, hcs, _⟩ := h
    have hc := (hplain c (by simp [hcs])).1
    simp [hcs, List.isPrefixOf, Ne.symm hc]
  unfold readQuoted
  simp only [htriple, Bool.false_eq_true, if_false, List.length_singleton, List.drop_succ_cons, List.drop_zero,
    spanQuoted_append hslash rest hplain, Option.bind_some, unescape_plain fun c hc => (hplain c hc).2,
    Option.map_some, String.ofList_toList]

/-! ## Words -/

/-- How characters are split into words. -/
inductive Splits : List Char → List Lexeme → Prop
  | nil : Splits [] []
  | space {cs : List Char} {words : List Lexeme} (h : Splits cs words) : Splits (' ' :: cs) words
  | word {c : Char} {cs rest : List Char} {word : Lexeme} {words : List Lexeme}
      (hc : c ∉ [' ', '\t', '\x0c', '#']) (hread : readLexeme (c :: cs) = some ([word], rest))
      (hrest : rest.length ≤ cs.length) (h : Splits rest words) : Splits (c :: cs) (word :: words)

/-- One word after another. -/
theorem lexemesFrom_cons {c : Char} (hc : c ∉ [' ', '\t', '\x0c', '#']) (bound : Nat) (cs : List Char) :
    lexemesFrom (bound + 1) (c :: cs) = do
      let (words, rest) ← readLexeme (c :: cs)
      return words ++ (← lexemesFrom bound rest) := by
  simp only [List.mem_cons, List.not_mem_nil, or_false, not_or] at hc
  simp only [lexemesFrom, hc, decide_false, Bool.false_or, Bool.false_eq_true, if_false]

/-- There are no words where one cannot be read. -/
theorem lexemesFrom_eq_none {c : Char} {cs : List Char} (hc : c ∉ [' ', '\t', '\x0c', '#'])
    (h : ∀ words rest, readLexeme (c :: cs) = some (words, rest) → ∀ bound, lexemesFrom bound rest = none) :
    ∀ bound, lexemesFrom bound (c :: cs) = none
  | 0 => rfl
  | bound + 1 => by
    rw [lexemesFrom_cons hc]
    cases hread : readLexeme (c :: cs) with
    | none => rfl
    | some found =>
        show (lexemesFrom bound found.2).bind _ = none
        rw [h found.1 found.2 hread]
        rfl

theorem Splits.lexemesFrom {cs : List Char} {words : List Lexeme} (h : Splits cs words) :
    ∀ bound, cs.length ≤ bound → lexemesFrom bound cs = some words := by
  induction h with
  | nil => exact fun bound _ => by cases bound <;> rfl
  | space h ih =>
      intro bound hbound
      obtain ⟨bound, rfl⟩ : ∃ b, bound = b + 1 := ⟨bound - 1, by simp at hbound; omega⟩
      rw [Formula.lexemesFrom, if_pos (by decide)]
      exact ih bound (by simpa using hbound)
  | @word c cs rest word words hc hread hrest h ih =>
      intro bound hbound
      obtain ⟨bound, rfl⟩ : ∃ b, bound = b + 1 := ⟨bound - 1, by simp at hbound; omega⟩
      rw [List.length_cons, Nat.add_le_add_iff_right] at hbound
      rw [lexemesFrom_cons hc, hread]
      show (Formula.lexemesFrom bound rest).bind _ = _
      rw [ih bound (by omega)]
      rfl

/-- The signs of constructor texts. -/
def signs : List (Char × Lexeme) :=
  [('(', .opening .round), (')', .closing .round), (',', .comma), ('-', .operator .minus)]

theorem Splits.sign {c : Char} {cs : List Char} {word : Lexeme} {words : List Lexeme}
    (hword : (c, word) ∈ signs) (h : Splits cs words) : Splits (c :: cs) (word :: words) := by
  simp only [signs, List.mem_cons, Prod.mk.injEq, List.not_mem_nil, or_false] at hword
  rcases hword with ⟨rfl, rfl⟩ | ⟨rfl, rfl⟩ | ⟨rfl, rfl⟩ | ⟨rfl, rfl⟩ <;>
    exact .word (by decide) rfl (Nat.le_refl _) h

section Function

variable {name : String} {rest : List Char}

/-- Letters are a name, up to a character that neither continues nor quotes. -/
theorem readLexeme_letters (hne : name.toList ≠ []) (hletters : ∀ c ∈ name.toList, c.isAlpha)
    (hrest : ∀ c ∈ rest.head?, Text.isNamePart c = false ∧ isMark c = false) :
    readLexeme (name.toList ++ rest) = some ([.name name], rest) := by
  obtain ⟨c, cs, hcs⟩ := List.exists_cons_of_ne_nil hne
  have hpart : ∀ d ∈ name.toList, Text.isNamePart d = true := by
    intro d hd
    simp [Text.isNamePart, Text.isNameStart, Text.isLetter, hletters d hd]
  have hstart : Text.isNameStart c = true := by
    simp [Text.isNameStart, Text.isLetter, hletters c (by simp [hcs])]
  have hends : rest.takeWhile Text.isNamePart = [] ∧ rest.dropWhile Text.isNamePart = rest ∧
      rest.head?.any isMark = false := by
    cases rest with
    | nil => exact ⟨rfl, rfl, rfl⟩
    | cons d ds =>
        obtain ⟨hd, hmark⟩ := hrest d rfl
        simp [hd, hmark]
  have htake : (name.toList ++ rest).takeWhile Text.isNamePart = name.toList := by
    rw [List.takeWhile_append_of_pos hpart, hends.1, List.append_nil]
  have hdrop : (name.toList ++ rest).dropWhile Text.isNamePart = rest := by
    rw [List.dropWhile_append_of_pos hpart, hends.2.1]
  rw [hcs, List.cons_append] at htake hdrop ⊢
  simp only [readLexeme, hstart, if_true, htake, hdrop, hends.2.2, Bool.false_and, Bool.false_eq_true, if_false]
  rw [← hcs, String.ofList_toList]

theorem readLexeme_function (hne : name.toList ≠ []) (hletters : ∀ c ∈ name.toList, c.isAlpha) :
    readLexeme (name.toList ++ '(' :: rest) = some ([.name name], '(' :: rest) := by
  refine readLexeme_letters hne hletters fun c hc => ?_
  cases hc
  exact ⟨by decide, rfl⟩

theorem notGap_of_isAlpha {c : Char} (h : c.isAlpha) : c ∉ [' ', '\t', '\x0c', '#'] := by
  intro hgap
  simp only [List.mem_cons, List.not_mem_nil, or_false] at hgap
  rcases hgap with rfl | rfl | rfl | rfl <;> exact absurd h (by decide)

theorem Splits.function (hne : name.toList ≠ []) (hletters : ∀ c ∈ name.toList, c.isAlpha)
    {words : List Lexeme} (h : Splits ('(' :: rest) words) :
    Splits (name.toList ++ '(' :: rest) (.name name :: words) := by
  have hread := @readLexeme_function _ rest hne hletters
  obtain ⟨c, cs, hcs⟩ := List.exists_cons_of_ne_nil hne
  rw [hcs, List.cons_append] at hread ⊢
  exact .word (notGap_of_isAlpha (hletters c (by simp [hcs]))) hread (by simp) h

end Function

theorem start_of_isDigit {c : Char} (h : c.isDigit) :
    Text.isNameStart c = false ∧ isMark c = false ∧ c ∉ [' ', '\t', '\x0c', '#'] := by
  have hdigits : ∀ n < 58, 48 ≤ n → Text.isNameStart (Char.ofNat n) = false ∧ isMark (Char.ofNat n) = false ∧
      Char.ofNat n ∉ [' ', '\t', '\x0c', '#'] := by decide
  simp only [Char.isDigit, Bool.and_eq_true, decide_eq_true_eq, UInt32.le_iff_toNat_le, ge_iff_le] at h
  change 48 ≤ c.toNat ∧ c.toNat ≤ 57 at h
  rw [← Char.ofNat_toNat c]
  exact hdigits c.toNat (by omega) h.1

theorem readLexeme_toDigits {n : Nat} {rest : List Char} (hrest : EndsArgument rest) :
    readLexeme (Nat.toDigits 10 n ++ rest) =
      if Text.isWritable n then some ([.number (.exact n)], rest) else none := by
  obtain ⟨c, cs, hcs, hc⟩ := exists_toDigits_eq n
  obtain ⟨hstart, hmark, -⟩ := start_of_isDigit hc
  have hread := readNumber_toDigits (n := n) hrest
  rw [hcs, List.cons_append] at hread ⊢
  simp only [readLexeme, hstart, hmark, hc, hread, Bool.false_eq_true, Bool.true_or, if_false, if_true]
  split
  · cases hrest <;> rfl
  · rfl

theorem Splits.integer {n : Nat} (hn : Text.isWritable n) {rest : List Char} (hrest : EndsArgument rest)
    {words : List Lexeme} (h : Splits rest words) :
    Splits (Nat.toDigits 10 n ++ rest) (.number (.exact n) :: words) := by
  obtain ⟨c, cs, hcs, hc⟩ := exists_toDigits_eq n
  have hread := readLexeme_toDigits (n := n) hrest
  rw [if_pos hn] at hread
  rw [hcs, List.cons_append] at hread ⊢
  exact .word (start_of_isDigit hc).2.2 hread (by simp) h

/-- An integer with too many digits cannot be read. -/
theorem lexemesFrom_toDigits {n : Nat} (hn : Text.isWritable n = false) {rest : List Char}
    (hrest : EndsArgument rest) : ∀ bound, lexemesFrom bound (Nat.toDigits 10 n ++ rest) = none := by
  obtain ⟨c, cs, hcs, hc⟩ := exists_toDigits_eq n
  have hread := readLexeme_toDigits (n := n) hrest
  rw [hn] at hread
  rw [hcs, List.cons_append] at hread ⊢
  refine lexemesFrom_eq_none (start_of_isDigit hc).2.2 fun words rest' h => ?_
  rw [hread] at h
  cases h

theorem Splits.quoted {name : String} (hname : IsName name) {rest : List Char} {words : List Lexeme}
    (h : Splits rest words) : Splits ((Text.quote name).toList ++ rest) (.quoted name :: words) := by
  obtain ⟨mark, hmark, hplain, hquote⟩ := quote_of_isName hname
  have hstart : Text.isNameStart mark = false ∧ mark ∉ [' ', '\t', '\x0c', '#'] := by
    simp only [isMark, Bool.or_eq_true, decide_eq_true_eq] at hmark
    rcases hmark with rfl | rfl <;> decide
  rw [hquote, List.cons_append, List.append_assoc, List.singleton_append]
  refine .word hstart.2 ?_ (by simp; omega) h
  simp only [readLexeme, hstart.1, Bool.false_eq_true, if_false, hmark, if_true,
    readQuoted_name hname hmark hplain rest, Option.map_some]

end Formula

end TensorEquations
