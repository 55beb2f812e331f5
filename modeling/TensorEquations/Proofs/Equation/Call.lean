import TensorEquations.Equation.Tag
import TensorEquations.Proofs.Coefficient.Series
import TensorEquations.Proofs.Coefficient.Stability
import TensorEquations.Proofs.Expression.Printing

/-!
# The calls that tags stand for

A tag becomes a call that renames the labels of its coefficient, as text; the text is read again with the
body around it.

* `CoefficientKey.lexeme_name` — the name of a coefficient is a name of the language.
* `IsIndexToken` — a text that is read as labels in braces.
* `kinds_renameCall` — the tokens of a call.
* `Tensor.rename_labels` — renaming all labels of a tensor in order.
* `evaluate_renameCall` — **the call of a tag means what the tag says.**
-/

namespace TensorEquations

/-! ## Names as tokens -/

/-- A character that may not stand in a name. -/
theorem Lexeme.not_mem {c : Char} (hfirst : isNameFirst c = false) (hlater : isNameLater c = false) {w : List Char}
    {name : String} (h : Lexeme w (.name name)) : c ∉ w := by
  generalize hkind : TokenKind.name name = kind at h
  cases h with
  | @name d ds hd hds =>
    intro hm
    rcases List.mem_cons.mp hm with rfl | hm
    · exact absurd (hfirst.symm.trans hd) (nomatch ·)
    · exact absurd (hlater.symm.trans (hds _ hm)) (nomatch ·)
  | mark h =>
    subst hkind
    unfold punctuation? at h
    split at h <;> exact nomatch h
  | _ => exact nomatch hkind

/-- What holds of every character of some texts and of what stands between them. -/
theorem forall_mem_intercalate {P : Char → Prop} {separator : String} (hseparator : ∀ c ∈ separator.toList, P c) :
    ∀ {texts : List String}, (∀ text ∈ texts, ∀ c ∈ text.toList, P c) → ∀ c ∈ (separator.intercalate texts).toList, P c
  | [], _ => nofun
  | [text], h => by
    rw [String.intercalate_singleton]
    exact h text List.mem_cons_self
  | text :: text' :: texts, h => by
    obtain ⟨htext, htexts⟩ := List.forall_mem_cons.mp h
    rw [String.intercalate_cons_cons, String.toList_append, String.toList_append, List.forall_mem_append,
      List.forall_mem_append]
    exact ⟨⟨htext, hseparator⟩, forall_mem_intercalate hseparator htexts⟩

namespace CoefficientKey

/-- Whether none of the four sizes of a key is negative. -/
def IsNatural (k : CoefficientKey) : Prop := ∀ n ∈ k.shape.toList, 0 ≤ n

theorem isNameSafe_name {k : CoefficientKey} (h : k.IsNatural) : ∀ c ∈ k.name.toList, isNameSafe c := by
  have hseparator : ∀ c ∈ "_".toList, isNameSafe c := List.all_iff_forall_prop.mp (by decide)
  refine forall_mem_intercalate hseparator (List.forall_mem_cons.mpr ⟨List.all_iff_forall_prop.mp (by decide),
    List.forall_mem_cons.mpr ⟨?_, ?_⟩⟩)
  · rw [safeId, String.toList_ofList, List.forall_mem_map]
    intro c _
    split
    · assumption
    · decide
  · rw [List.forall_mem_map]
    intro n hn
    obtain ⟨m, rfl⟩ := Int.eq_ofNat_of_zero_le (h n hn)
    exact isNameSafe_numeral

theorem isNatural_canonical {shape : BlockShape} {id : String} (h : ∀ n ∈ shape.toList, 0 ≤ n) :
    (canonical shape id).IsNatural := by
  simp only [BlockShape.toList, List.forall_mem_cons] at h
  rw [canonical, BlockShape.canonical]
  split <;> simp [IsNatural, BlockShape.toList, BlockShape.swap, h]

/-- **The name of a coefficient is one name**, whatever its text. -/
theorem lexeme_name {k : CoefficientKey} (h : k.IsNatural) : Lexeme k.name.toList (.name k.name) := by
  have hchars := isNameSafe_name h
  obtain ⟨cs, hcs⟩ : ∃ cs, k.name.toList = 'C' :: cs := by
    rw [name, String.intercalate_cons_cons, String.toList_append, String.toList_append, List.append_assoc]
    exact ⟨_, rfl⟩
  rw [hcs, List.forall_mem_cons] at hchars
  exact .of_name hcs (by decide) fun c hc => isNameLater_of_isNameSafe (hchars.2 c hc)

end CoefficientKey

/-! ## The tokens of a call -/

/-- The kinds of the tokens of a text without its comments. -/
def kindsIn (cs : List Char) : Option (List TokenKind) := kindsFrom none (bare false cs)

section Tokens

variable {w rest : List Char} {c : Char} {kind : TokenKind}

/-- A mark in front of a text is one more token. -/
theorem kindsIn_mark (hmark : punctuation? c = some kind) (hslash : kind ≠ .slash) :
    kindsIn (c :: rest) = (kindsIn rest).map (kind :: ·) := by
  have hgap := (mark_alone c (mem_marks hmark)).1
  have hlexeme : Lexeme [c] kind := .mark hmark
  rw [kindsIn, ← List.singleton_append, hlexeme.bare fun h => absurd h hslash, List.singleton_append]
  simp [kindsFrom, finished, hgap, hmark, kindsIn]

theorem kindsIn_blank : kindsIn (' ' :: rest) = kindsIn rest :=
  (Filler.blank (.inl rfl) .nil).kindsFrom rest

/-- A name in front of a mark or a blank is one more token. -/
theorem kindsIn_name {name : String} (hname : Lexeme name.toList (.name name))
    (hend : IsBreak c ∧ ¬ Text.isLineBreak c ∧ c ≠ '/') :
    kindsIn (name.toList ++ c :: rest) = (kindsIn (c :: rest)).map (.name name :: ·) := by
  have hplain : bare false (c :: rest) = c :: bare false rest :=
    bare_plain hend.2.1 fun h => hend.2.2 (List.cons_prefix_cons.mp h).1.symm
  rw [kindsIn, hname.bare nofun, kindsIn, hplain]
  refine hname.kindsFrom fun _ d hd => ?_
  obtain rfl := Option.some.inj hd
  exact hend.1

/-- Names with blanks between them, in front of a closing brace. -/
theorem kindsIn_names : ∀ {ls : List String}, (∀ l ∈ ls, Lexeme l.toList (.name l)) →
    kindsIn ((" ".intercalate ls).toList ++ '\x7d' :: rest) =
      (kindsIn rest).map (ls.map .name ++ .closeBrace :: ·)
  | [], _ => kindsIn_mark rfl (by decide)
  | [l], h => by
    have hbrace : IsBreak '\x7d' := isBreak_of_mark rfl
    rw [String.intercalate_singleton, kindsIn_name (h l List.mem_cons_self) ⟨hbrace, by decide⟩,
      kindsIn_mark rfl (by decide), Option.map_map]
    rfl
  | l :: l' :: ls, h => by
    obtain ⟨hl, hls⟩ := List.forall_mem_cons.mp h
    have hblank : IsBreak ' ' := isBreak_of_isGap rfl
    rw [String.intercalate_cons_cons, String.toList_append, String.toList_append, List.append_assoc,
      List.append_assoc, show " ".toList = [' '] from rfl, List.singleton_append,
      kindsIn_name hl ⟨hblank, by decide⟩, kindsIn_blank, kindsIn_names hls, Option.map_map]
    rfl

/-- The tokens of labels in braces. -/
def braced (ls : List String) : List TokenKind := .openBrace :: (ls.map .name ++ [.closeBrace])

theorem toList_labelSet (ls : List String) :
    (labelSet ls).toList = '\x7b' :: ((" ".intercalate ls).toList ++ ['\x7d']) := by
  rw [labelSet, String.toList_append, String.toList_append]
  rfl

theorem not_mem_labelSet {ls : List String} (hc : c ∉ ['\x7b', ' ', '\x7d']) (h : ∀ l ∈ ls, c ∉ l.toList) :
    c ∉ (labelSet ls).toList := by
  simp only [List.mem_cons, List.not_mem_nil, or_false, not_or] at hc
  have hblank : ∀ d ∈ " ".toList, d ≠ c := List.forall_mem_singleton.mpr (Ne.symm hc.2.1)
  have hjoined : ∀ d ∈ (" ".intercalate ls).toList, d ≠ c :=
    forall_mem_intercalate hblank fun l hl d hd => ne_of_mem_of_not_mem hd (h l hl)
  rw [toList_labelSet, List.mem_cons, List.mem_append, List.mem_singleton]
  rintro (rfl | hm | rfl)
  · exact hc.1 rfl
  · exact hjoined c hm rfl
  · exact hc.2.2 rfl

/-- **Labels that are names are read back.** -/
theorem kindsIn_labelSet {ls : List String} (h : ∀ l ∈ ls, Lexeme l.toList (.name l)) :
    kindsIn ((labelSet ls).toList ++ rest) = (kindsIn rest).map (braced ls ++ ·) := by
  rw [toList_labelSet, List.cons_append, List.append_assoc, List.singleton_append, kindsIn_mark rfl (by decide),
    kindsIn_names h, Option.map_map]
  congr 1
  funext kinds
  simp [braced]

end Tokens

/-- A text that is read as labels in braces, with a closing bracket behind it; in a text that ends with a
comment the bracket would belong to the comment. -/
def IsIndexToken (indices : String) (xs : List String) : Prop :=
  (scan (Text.stripComments (indices ++ ")"))).kinds? = some (braced xs ++ [.closeParen])

/-- The end of a line ends every token. -/
theorem isBreak_of_isLineBreak {c : Char} (h : Text.isLineBreak c) : IsBreak c := by
  have hname : isNameLater c = false := Bool.eq_false_iff.mpr fun hw => (plain_of_word (.inl hw)).1 h
  have hdigit : Text.isDecimalDigit c = false :=
    Bool.eq_false_iff.mpr fun hw => (plain_of_word (.inr (.inl hw))).1 h
  have hpoint : c ≠ '.' := fun hw => (plain_of_word (.inr (.inr hw))).1 h
  rintro (_ | _ | _ | _) <;> simp [Pending.grow, hname, hdigit, hpoint]

/-- Where every character belongs to a token or a gap, the ends of the lines are gaps. -/
theorem isGap_of_isLineBreak {c : Char} {cs : List Char} {kinds : List TokenKind} (hc : Text.isLineBreak c)
    (h : kindsFrom none (c :: cs) = some kinds) : isGap c := by
  have hbreaks : ∀ d ∈ lineBreaks, isGap d || (punctuation? d).isNone && (Pending.start? d).isNone :=
    List.all_iff_forall_prop.mp (by decide)
  have hother := hbreaks c (mem_lineBreaks hc)
  by_contra hgap
  rw [Bool.not_eq_true] at hgap
  simp only [hgap, Bool.false_or, Bool.and_eq_true, Option.isNone_iff_eq_none] at hother
  simp [kindsFrom, finished, hgap, hother] at h

/-- A text without slashes has the same tokens in front of another one. -/
theorem kindsIn_append (cs : List Char) {kinds : List TokenKind} (h : kindsFrom none cs = some kinds)
    (hslash : .slash ∉ kinds) (rest : List Char) :
    kindsIn (cs ++ rest) = kindsFrom none (cs ++ bare false rest) := by
  cases hfind : cs.find? (fun c => Text.isLineBreak c || c = '/') with
  | none =>
    have hplain : ∀ c ∈ cs, ¬ Text.isLineBreak c ∧ c ≠ '/' := by simpa using hfind
    rw [kindsIn, bare_append_plain hplain]
  | some c =>
    -- the tokens of the text up to its first end of a line, and of what follows
    obtain ⟨hc, front, back, hcs, hfront⟩ := List.find?_eq_some_iff_append.mp hfind
    have hshorter : back.length < cs.length := by
      rw [hcs, List.length_append, List.length_cons]
      omega
    have hplain : ∀ c ∈ front, ¬ Text.isLineBreak c ∧ c ≠ '/' := by simpa using hfront
    have hends : Text.isLineBreak c ∨ c = '/' := by simpa using hc
    have hbreak : IsBreak c := hends.elim isBreak_of_isLineBreak fun h => h ▸ isBreak_of_mark rfl
    rw [hcs, kindsFrom_append hbreak, Option.bind_eq_some_iff] at h
    obtain ⟨before, -, hafter⟩ := h
    obtain ⟨after, hback, rfl⟩ := Option.map_eq_some_iff.mp hafter
    rcases hends with hline | rfl
    · have hgap := isGap_of_isLineBreak hline hback
      rw [kindsFrom_gap hgap] at hback
      rw [hcs, List.append_assoc, List.cons_append, kindsIn, bare_append_plain hplain, bare_break hline,
        kindsFrom_append_gap (c := '\n') rfl, ← kindsIn,
        kindsIn_append back hback (fun h => hslash (List.mem_append_right _ h)), List.append_assoc,
        List.cons_append, kindsFrom_append_gap hgap]
    · obtain ⟨others, -, rfl⟩ : ∃ others, kindsFrom none back = some others ∧ .slash :: others = after := by
        simpa [kindsFrom, finished, isGap, punctuation?] using hback
      exact absurd (List.mem_append_right _ List.mem_cons_self) hslash
termination_by cs.length

/-- A text of labels in braces by itself is one; its tokens leave no room for a comment. -/
theorem IsIndexToken.of_scan {indices : String} {xs : List String}
    (h : (scan indices).kinds? = some (braced xs)) : IsIndexToken indices xs := by
  have hkinds : kindsFrom none indices.toList = some (braced xs) := (kindsFrom_eq none ⟨1, 1⟩ _).trans h
  have hslash : .slash ∉ braced xs := by simp [braced]
  rw [IsIndexToken, kinds_stripComments, String.toList_append, ← kindsIn, kindsIn_append _ hkinds hslash]
  have hbracket : bare false ")".toList = [')'] := rfl
  rw [hbracket, kindsFrom_append (isBreak_of_mark (c := ')') rfl), hkinds]
  rfl

/-- The call that a tag stands for, as an expression. -/
def CoefficientKey.call (k : CoefficientKey) (xs : List String) : Expression :=
  .call "RenameIndices" ⟨1, 1⟩ [.name k.name ⟨1, 1⟩, .labels k.labels, .labels xs]

theorem toList_renameCall (k : CoefficientKey) (indices : String) : (renameCall k indices).toList =
    "RenameIndices".toList ++ '(' :: (k.name.toList ++ ',' :: ' ' :: ((labelSet k.labels).toList ++
      ',' :: ' ' :: (indices ++ ")").toList)) := by
  have hcall : renameCall k indices =
      "RenameIndices(" ++ k.name ++ ", " ++ labelSet k.labels ++ ", " ++ indices ++ ")" := rfl
  have hfront : "RenameIndices".toList ++ ['('] = "RenameIndices(".toList := by decide
  have hcomma : ", ".toList = [',', ' '] := by decide
  rw [hcall]
  simp only [String.toList_append, ← hfront, hcomma, List.append_assoc, List.cons_append, List.nil_append]

/-- **The tokens of a call** are those of its parts. -/
theorem kinds_renameCall {k : CoefficientKey} (hk : k.IsNatural) {indices : String} {xs : List String}
    (h : IsIndexToken indices xs) :
    (scan (Text.stripComments (renameCall k indices))).kinds? = some (kindsOf [.value (k.call xs)]) := by
  have hfunction : Lexeme "RenameIndices".toList (.name "RenameIndices") :=
    .of_name rfl (by decide) (List.all_iff_forall_prop.mp (by decide))
  have hmark {c : Char} {kind : TokenKind} (hmark : punctuation? c = some kind) : IsBreak c :=
    isBreak_of_mark hmark
  have hindices : kindsIn (indices ++ ")").toList = some (braced xs ++ [.closeParen]) :=
    (kinds_stripComments _).symm.trans h
  rw [kinds_stripComments, toList_renameCall]
  show kindsIn _ = _
  rw [kindsIn_name hfunction ⟨hmark rfl, by decide⟩, kindsIn_mark rfl (by decide),
    kindsIn_name (CoefficientKey.lexeme_name hk) ⟨hmark rfl, by decide⟩, kindsIn_mark rfl (by decide), kindsIn_blank,
    kindsIn_labelSet k.lexeme_label, kindsIn_mark rfl (by decide), kindsIn_blank, hindices]
  simp [kindsOf, Statement.kinds, CoefficientKey.call, Expression.kinds, Expression.kindsAll, braced]

/-! ## Renaming all labels -/

namespace Tensor

/-- Pairwise different labels renamed in order. -/
theorem renamed_all {old new : List String} (h : old.Nodup) (hlength : old.length = new.length) :
    old.map (renamed old new) = new := by
  have hfst : (old.zip new).map Prod.fst = old := List.map_fst_zip hlength.le
  have hsnd : (old.zip new).map Prod.snd = new := List.map_snd_zip hlength.ge
  have hnodup : ((old.zip new).reverse.map Prod.fst).Nodup := by
    rw [List.map_reverse, List.nodup_reverse, hfst]
    exact h
  have hpair : ∀ p ∈ old.zip new, renamed old new p.1 = p.2 := by
    intro p hp
    have hlookup := lookup_map_of_nodup Prod.snd hnodup p (List.mem_reverse.mpr hp)
    rw [List.map_id''] at hlookup
    · rw [renamed, hlookup]
      rfl
    · exact fun _ => rfl
  calc old.map (renamed old new)
      = ((old.zip new).map Prod.fst).map (renamed old new) := by rw [hfst]
    _ = (old.zip new).map Prod.snd := by
        rw [List.map_map]
        exact List.map_congr_left hpair
    _ = new := hsnd

variable (t : Tensor) {xs : List String}

/-- **Renaming all labels of a tensor** succeeds exactly for as many labels that are pairwise different. -/
theorem rename_labels (hlength : xs.length = t.labels.length) : t.rename t.labels xs = t.relabel xs hlength := by
  have hmissing : t.labels.filter (fun label => !t.labels.contains label) = [] := by
    rw [List.filter_eq_nil_iff]
    intro label hlabel
    simp [hlabel]
  have hlabels : ∀ (ls ls' : List String) (h : ls.length = t.labels.length) (h' : ls'.length = t.labels.length),
      ls = ls' → t.relabel ls h = t.relabel ls' h' := by
    rintro ls _ _ _ rfl
    rfl
  rw [rename, if_neg (not_not.mpr hlength.symm), hmissing, if_neg (not_not.mpr rfl)]
  exact hlabels _ _ _ _ (renamed_all t.nodup_labels hlength.symm)

theorem rename_labels_ok (hlength : xs.length = t.labels.length) (hnodup : xs.Nodup) :
    ∃ u, t.rename t.labels xs = .ok u ∧ u.labels = xs ∧ u.dimension = t.dimension ∧
      u.components = t.components := by
  rw [rename_labels t hlength, relabel, dif_pos hnodup]
  exact ⟨_, rfl, rfl, rfl, rfl⟩

theorem rename_labels_error (h : ¬ (xs.length = t.labels.length ∧ xs.Nodup)) :
    ∃ error, t.rename t.labels xs = .error error := by
  by_cases hlength : xs.length = t.labels.length
  · rw [rename_labels t hlength, relabel, dif_neg fun hnodup => h ⟨hlength, hnodup⟩]
    exact ⟨_, rfl⟩
  · rw [rename, if_pos (Ne.symm hlength)]
    exact ⟨_, rfl⟩

end Tensor

/-! ## Running a call -/

theorem Expression.unplacedAll_eq_map (es : List Expression) :
    Expression.unplacedAll es = es.map Expression.unplaced := by
  induction es with
  | nil => rfl
  | cons e es ih => rw [unplacedAll, ih, List.map_cons]

theorem Expression.eq_name_of_unplaced {e : Expression} {text : String} {place : Place}
    (h : e.unplaced = .name text place) : ∃ place', e = .name text place' := by
  cases e <;> simp_all [unplaced]

theorem Expression.eq_labels_of_unplaced {e : Expression} {ls : List String} (h : e.unplaced = .labels ls) :
    e = .labels ls := by
  cases e <;> simp_all [unplaced]

namespace CoefficientKey

variable {k : CoefficientKey} {xs : List String}

/-- A program that is the call of a tag, places aside. -/
theorem eq_call_of_unplaced {ss : Program}
    (h : ss.map Statement.unplaced = [Statement.value (k.call xs)].map Statement.unplaced) :
    ∃ place place', ss =
      [.value (.call "RenameIndices" place [.name k.name place', .labels k.labels, .labels xs])] := by
  obtain ⟨s, rfl, hs⟩ := List.map_eq_singleton_iff.mp h
  cases s with
  | assign => exact nomatch hs
  | value e =>
    have he := Statement.value.inj hs
    cases e with
    | call f place es =>
      obtain ⟨rfl, -, hes⟩ := Expression.call.inj he
      rw [Expression.unplacedAll_eq_map, Expression.unplacedAll_eq_map] at hes
      obtain ⟨e, es, rfl, hname, hes'⟩ := List.map_eq_cons_iff.mp hes
      obtain ⟨e', es, rfl, hold, hes''⟩ := List.map_eq_cons_iff.mp hes'
      obtain ⟨e'', rfl, hnew⟩ := List.map_eq_singleton_iff.mp hes''
      obtain ⟨place', rfl⟩ := Expression.eq_name_of_unplaced hname
      rw [Expression.eq_labels_of_unplaced hold, Expression.eq_labels_of_unplaced hnew]
      exact ⟨_, _, rfl⟩
    | _ => exact nomatch he

/-- The call of a tag renames the labels of its tensor. -/
theorem outcome_call {i : Interpreter} {t : Tensor} (h : i.bindings.lookup k.name = some (.tensor t))
    (place place' : Place) : (i.outcome
      [.value (.call "RenameIndices" place [.name k.name place', .labels k.labels, .labels xs])]).1 =
        Value.ofShaped (t.rename k.labels xs) := by
  have hfunction : Builtin.ofName? "RenameIndices" = some .renameIndices := by decide
  have hvalue : (Expression.call "RenameIndices" place [.name k.name place', .labels k.labels, .labels xs]).evaluate
      i.bindings = Value.ofShaped (t.rename k.labels xs) := by
    simp only [Expression.evaluate, Expression.evaluateAll, h, hfunction]
    rfl
  simp only [Interpreter.outcome, runStatements, Statement.run, hvalue]
  cases Value.ofShaped (t.rename k.labels xs) <;> rfl

/-- **The text of a call** is run as a renaming of all labels. -/
theorem evaluate_call (hk : k.IsNatural) {indices : String} (hindices : IsIndexToken indices xs)
    {i : Interpreter} {t : Tensor} (h : i.bindings.lookup k.name = some (.tensor t)) :
    (i.evaluate (renameCall k indices)).1 = Value.ofShaped (t.rename k.labels xs) := by
  obtain ⟨d, hd, hstatements⟩ := derivation_of_kinds (kinds_renameCall hk hindices)
  obtain ⟨place, place', hcall⟩ := eq_call_of_unplaced hstatements
  rw [Interpreter.evaluate_of_derivation i hd, hcall, outcome_call h]

/-- The labels of a coefficient, as they stand in its calls, are read back. -/
theorem evaluate_labels (k : CoefficientKey) (i : Interpreter) :
    (i.evaluate (labelSet k.labels)).1 = .ok (.labels k.labels) := by
  have hkinds : (scan (Text.stripComments (labelSet k.labels))).kinds? =
      some (kindsOf [.value (.labels k.labels)]) := by
    rw [kinds_stripComments, ← kindsIn, ← List.append_nil (labelSet k.labels).toList,
      kindsIn_labelSet k.lexeme_label]
    simp [kindsIn, bare, kindsFrom, finished, braced, kindsOf, Statement.kinds, Expression.kinds]
  obtain ⟨d, hd, hstatements⟩ := derivation_of_kinds hkinds
  obtain ⟨s, hs, hunplaced⟩ := List.map_eq_singleton_iff.mp hstatements
  rw [i.evaluate_of_derivation hd, hs]
  cases s with
  | assign => cases hunplaced
  | value e =>
    rw [Expression.eq_labels_of_unplaced (Statement.value.inj hunplaced)]
    rfl

/-- The name of a coefficient is the only token of its text. -/
theorem scan_name {k : CoefficientKey} (hk : k.IsNatural) : scan k.name = ⟨[⟨.name k.name, ⟨1, 1⟩⟩], none⟩ :=
  (lexeme_name hk).scan_eq

end CoefficientKey

/-- **The call of a tag means what the tag says.** Where the name of a coefficient stands for its completed
tensor, the call has a value exactly if the tag has as many labels as the coefficient and they are pairwise
different; the value has the components of the tensor under the labels of the tag, and otherwise the error
is one of shapes. -/
theorem evaluate_renameCall {c d : Coefficient} {u t : Tensor} (hcounts : c.key.IsNatural)
    (hcomplete : c.complete u = .ok d) (htensor : d.tensor = some t) {indices : String} {xs : List String}
    (hindices : IsIndexToken indices xs) {i : Interpreter}
    (hname : i.bindings.lookup c.key.name = some (.tensor t)) :
    ((∃ v, (i.evaluate (renameCall c.key indices)).1 = .ok v) ↔ (xs.length : Int) = c.key.rank ∧ xs.Nodup) ∧
    ((xs.length : Int) = c.key.rank ∧ xs.Nodup →
      ∃ t', (i.evaluate (renameCall c.key indices)).1 = .ok (.tensor t') ∧ t'.labels = xs ∧
        t'.dimension = t.dimension ∧ t'.components = t.components) ∧
    (¬ ((xs.length : Int) = c.key.rank ∧ xs.Nodup) →
      ∃ error, (i.evaluate (renameCall c.key indices)).1 = .error (.shape error)) ∧
    scan c.key.name = ⟨[⟨.name c.key.name, ⟨1, 1⟩⟩], none⟩ ∧
    (i.evaluate (labelSet c.key.labels)).1 = .ok (.labels t.labels) := by
  obtain ⟨hrank, -, t', ht', rfl⟩ := Coefficient.complete_ok hcomplete
  obtain rfl := Option.some.inj htensor
  have hlabels : t'.labels = c.key.labels := Tensor.withLabels_labels ht'
  have hlength : (t'.labels.length : Int) = c.key.rank := by
    rw [hlabels, CoefficientKey.labels, length_labelSeries, ← hrank, Int.toNat_natCast]
  have hfits : (xs.length : Int) = c.key.rank ∧ xs.Nodup ↔ xs.length = t'.labels.length ∧ xs.Nodup := by
    rw [← hlength, Int.natCast_inj]
  have hvalue := CoefficientKey.evaluate_call hcounts hindices hname
  have hok : (xs.length : Int) = c.key.rank ∧ xs.Nodup →
      ∃ u', (i.evaluate (renameCall c.key indices)).1 = .ok (.tensor u') ∧ u'.labels = xs ∧
        u'.dimension = t'.dimension ∧ u'.components = t'.components := by
    intro h
    obtain ⟨u', hu', hsame⟩ := t'.rename_labels_ok (hfits.mp h).1 (hfits.mp h).2
    rw [hvalue, ← hlabels, hu']
    exact ⟨u', rfl, hsame⟩
  have herror : ¬ ((xs.length : Int) = c.key.rank ∧ xs.Nodup) →
      ∃ error, (i.evaluate (renameCall c.key indices)).1 = .error (.shape error) := by
    intro h
    obtain ⟨error, herror⟩ := t'.rename_labels_error (mt hfits.mpr h)
    rw [hvalue, ← hlabels, herror]
    exact ⟨error, rfl⟩
  refine ⟨⟨?_, fun h => ?_⟩, hok, herror, CoefficientKey.scan_name hcounts, ?_⟩
  · rintro ⟨v, hv⟩
    by_contra h
    obtain ⟨error, he⟩ := herror h
    exact nomatch hv.symm.trans he
  · obtain ⟨u', hu', -⟩ := hok h
    exact ⟨_, hu'⟩
  · rw [c.key.evaluate_labels i, hlabels]

/-- The two labels of a coefficient exchanged. -/
theorem evaluate_renameCall_exchanged :
    let key : CoefficientKey := .canonical ⟨1, 0, 1, 0⟩ "a b"
    let t : Tensor := ⟨["a", "b"], 2, #[.symbol "p", .symbol "q", .symbol "r", .symbol "s"], by decide, rfl, nofun⟩
    ∃ t', ((Interpreter.start [(key.name, .tensor t)]).evaluate (renameCall key "\x7bb a\x7d")).1 =
      .ok (.tensor t') ∧ t'.labels = ["b", "a"] ∧ t'.dimension = 2 ∧ t'.components = t.components := by
  intro key t
  let u : Tensor := ⟨["x", "y"], 2, t.components, by decide, rfl, nofun⟩
  have hcounts : key.IsNatural := by
    show ∀ n ∈ [1, 0, 1, 0], (0 : Int) ≤ n
    decide
  have hcomplete : ({ key := key } : Coefficient).complete u =
      .ok { key := key, tensor := some t, isFinished := true } := rfl
  have hindices : IsIndexToken "\x7bb a\x7d" ["b", "a"] := .of_scan (by decide)
  have hname : List.lookup key.name [(key.name, Value.tensor t)] = some (.tensor t) := List.lookup_cons_self
  have hfits : (["b", "a"].length : Int) = key.rank ∧ ["b", "a"].Nodup := ⟨rfl, by decide⟩
  have hcall := evaluate_renameCall (i := .start [(key.name, .tensor t)]) hcounts hcomplete rfl hindices hname
  exact hcall.2.1 hfits

end TensorEquations
