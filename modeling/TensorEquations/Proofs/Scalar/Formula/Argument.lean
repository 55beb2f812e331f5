import TensorEquations.Proofs.Scalar.Formula.Word
import TensorEquations.Scalar.Decoding
import TensorEquations.Scalar.Encoding

/-!
# Arguments of constructor calls

A constructor text is read argument by argument: its characters give words, the words a tree and the tree a
value, whatever stands around it.

* `IsArgument` — characters together with their words, their tree and their value.
* `StandsFor` — characters and their value.
* `StandsFor.integer`, `StandsFor.name`, `StandsFor.call` — integers, quoted names, and **calls of which the
  arguments are read**.
* `StandsFor.read` — an argument alone is read as a formula.
-/

namespace TensorEquations.Formula

/-! ## Arguments -/

/-- Operations of which the innermost is an open bracket. -/
inductive IsOpen : List Frame → Prop
  | bare (elements : List Tree) (frames : List Frame) : IsOpen (.bare elements :: frames)
  | call (function : String) (arguments : List Tree) (frames : List Frame) :
      IsOpen (.call function arguments :: frames)

theorem IsOpen.reduce {frames : List Frame} (h : IsOpen frames) (e : Tree) : reduce 1 e frames = (e, frames) := by
  cases h <;> rfl

/-- Words that do not go on with what is in front of them. -/
inductive EndsWords : List Lexeme → Prop
  | nil : EndsWords []
  | comma (words : List Lexeme) : EndsWords (.comma :: words)
  | closing (words : List Lexeme) : EndsWords (.closing .round :: words)

/-- Characters that may stand as an argument, with their words, their tree and their value. -/
structure IsArgument (cs : List Char) (words : List Lexeme) (e : Tree) (v : Value) : Prop where
  oneLine : '\n' ∉ cs
  unpadded : (∀ c ∈ cs.head?, Text.isBlank c = false) ∧ ∀ c ∈ cs.getLast?, Text.isBlank c = false
  splits : ∀ {rest : List Char} {next : List Lexeme}, EndsArgument rest → Splits rest next →
    Splits (cs ++ rest) (words ++ next)
  joined : ∀ {next : List Lexeme}, EndsWords next → joinLexemes (words ++ next) = words ++ joinLexemes next
  parsed : ∀ {frames : List Frame} {mode : Mode}, IsOpen frames → mode = .operand ∨ mode = .element →
    ∃ e' frames', words.foldlM State.next ⟨frames, mode⟩ = some ⟨frames', .after e'⟩ ∧
      reduce 1 e' frames' = (e, frames)
  positional : ∀ name e', e ≠ .keyword name e'
  value : e.value = .ok v

/-- Characters that may stand as an argument, with their value. -/
def StandsFor (cs : List Char) (v : Value) : Prop := ∃ words e, IsArgument cs words e v

/-! ## Integers and names -/

theorem toList_toString_nat (n : Nat) : (toString n).toList = Nat.toDigits 10 n := by
  rw [Nat.toString_eq_repr, Nat.repr_eq_ofList_toDigits, String.toList_ofList]

theorem not_mem_toDigits {c : Char} (hc : c.isDigit = false) (n : Nat) : c ∉ Nat.toDigits 10 n := fun h =>
  absurd (hc.symm.trans (isDigit_of_mem_toDigits h)) Bool.false_ne_true

theorem isBlank_of_isNameLater {c : Char} (h : isNameLater c) : Text.isBlank c = false := by
  have hc := isNameLater_bounds h
  rw [Text.isBlank, Bool.eq_false_iff]
  simp only [ne_eq, Bool.or_eq_true, Bool.and_eq_true, decide_eq_true_eq, beq_iff_eq]
  omega

theorem isBlank_of_mem_toDigits {n : Nat} {c : Char} (h : c ∈ Nat.toDigits 10 n) : Text.isBlank c = false := by
  exact isBlank_of_isNameLater (by simp [isNameLater, Char.isAlphanum, isDigit_of_mem_toDigits h])

theorem StandsFor.natural {n : Nat} (h : Text.isWritable n) :
    StandsFor (toString n).toList (.scalar (.rational n)) := by
  rw [toList_toString_nat]
  refine ⟨[.number (.exact n)], .number (.exact n), ?_⟩
  exact {
    oneLine := not_mem_toDigits (by decide) n
    unpadded := ⟨fun c hc => isBlank_of_mem_toDigits (List.mem_of_mem_head? hc),
      fun c hc => isBlank_of_mem_toDigits (List.mem_of_mem_getLast? hc)⟩
    splits := fun hrest hnext => .integer h hrest hnext
    joined := fun _ => rfl
    parsed := fun hopen hmode => by
      rcases hmode with rfl | rfl
      · exact ⟨_, _, rfl, hopen.reduce _⟩
      · exact ⟨_, _, rfl, hopen.reduce _⟩
    positional := by simp
    value := rfl }

/-- A negative integer is the natural number behind its sign. -/
theorem StandsFor.negative {n : Nat} (h : Text.isWritable n) :
    StandsFor ('-' :: (toString n).toList) (.scalar (.rational (-n))) := by
  rw [toList_toString_nat]
  refine ⟨[.operator .minus, .number (.exact n)], .negate (.number (.exact n)), ?_⟩
  exact {
    oneLine := by simpa using not_mem_toDigits (c := '\n') (by decide) n
    unpadded := by
      obtain ⟨d, ds, hds⟩ := List.exists_cons_of_ne_nil (Nat.toDigits_ne_nil (b := 10) (n := n))
      refine ⟨by simp; decide, fun c hc => isBlank_of_mem_toDigits (n := n) (List.mem_of_mem_getLast? ?_)⟩
      rwa [hds, List.getLast?_cons_cons, ← hds] at hc
    splits := fun hrest hnext => .sign (by decide) (.integer h hrest hnext)
    joined := fun _ => rfl
    parsed := fun hopen hmode => by
      rcases hmode with rfl | rfl
      · exact ⟨_, _, rfl, hopen.reduce _⟩
      · exact ⟨_, _, rfl, hopen.reduce _⟩
    positional := by simp
    value := congrArg (fun s => Except.ok (Value.scalar s)) (Scalar.rational_neg n) }

/-- **An integer is read back**, if it has at most as many digits as may be written. -/
theorem StandsFor.integer {n : Int} (h : Text.isWritable n.natAbs) :
    StandsFor (toString n).toList (.scalar (.rational n)) := by
  cases n with
  | ofNat m => exact StandsFor.natural h
  | negSucc m =>
      have hvalue : ((Int.negSucc m : ℤ) : ℚ) = -((m + 1 : ℕ) : ℚ) := Int.cast_negSucc m
      have htext : (toString (Int.negSucc m)).toList = '-' :: (toString (m + 1)).toList :=
        String.toList_append
      rw [hvalue, htext]
      exact StandsFor.negative h

/-- **A quoted name is read back.** -/
theorem StandsFor.name {name : String} (h : IsName name) : StandsFor (Text.quote name).toList (.text name) := by
  refine ⟨[.quoted name], .quoted name, ?_⟩
  exact {
    oneLine := by
      obtain ⟨mark, hmark, _, hquote⟩ := quote_of_isName h
      have hname : '\n' ∉ name.toList := fun hc => absurd (h.isNameLater _ hc) (by decide)
      have hne : '\n' ≠ mark := fun he => absurd hmark (by rw [← he]; decide)
      simp [hquote, hname, hne]
    unpadded := by
      obtain ⟨mark, hmark, _, hquote⟩ := quote_of_isName h
      have hblank : Text.isBlank mark = false := by
        simp only [isMark, Bool.or_eq_true, decide_eq_true_eq] at hmark
        rcases hmark with rfl | rfl <;> decide
      rw [hquote, ← List.cons_append, List.getLast?_concat]
      simp [hblank]
    splits := fun _ hnext => .quoted h hnext
    joined := fun hnext => by cases hnext <;> rfl
    parsed := fun hopen hmode => by
      rcases hmode with rfl | rfl
      · exact ⟨_, _, rfl, hopen.reduce _⟩
      · exact ⟨_, _, rfl, hopen.reduce _⟩
    positional := by simp
    value := rfl }

/-! ## Calls -/

section Ends

variable {e e' : Tree} {function : String} {done : List Tree} {frames frames' : List Frame}

theorem afterOperand_closing (h : reduce 1 e' frames' = (e, .call function done :: frames)) :
    afterOperand frames' e' (.closing .round) = some ⟨frames, .after (.call function (done ++ [e]))⟩ := by
  simp [afterOperand, closeElement, h]

theorem afterOperand_comma (h : reduce 1 e' frames' = (e, .call function done :: frames)) :
    afterOperand frames' e' .comma = some ⟨.call function (done ++ [e]) :: frames, .element⟩ := by
  simp [afterOperand, closeElement, h]

end Ends

/-- Arguments with commas between them. -/
inductive AreArguments : List Char → List Lexeme → List Tree → List Value → Prop
  | one {cs : List Char} {words : List Lexeme} {e : Tree} {v : Value} (h : IsArgument cs words e v) :
      AreArguments cs words [e] [v]
  | more {cs cs' : List Char} {words words' : List Lexeme} {e : Tree} {v : Value} {es : List Tree}
      {vs : List Value} (h : IsArgument cs words e v) (hs : AreArguments cs' words' es vs) :
      AreArguments (cs ++ ',' :: ' ' :: cs') (words ++ .comma :: words') (e :: es) (v :: vs)

namespace AreArguments

variable {cs : List Char} {words : List Lexeme} {es : List Tree} {vs : List Value}

theorem oneLine (h : AreArguments cs words es vs) : '\n' ∉ cs := by
  induction h with
  | one h => exact h.oneLine
  | more h _ ih => simp [h.oneLine, ih]

theorem splits (h : AreArguments cs words es vs) {rest : List Char} {next : List Lexeme}
    (hrest : EndsArgument rest) (hnext : Splits rest next) : Splits (cs ++ rest) (words ++ next) := by
  induction h with
  | one h => exact h.splits hrest hnext
  | more h _ ih =>
      rw [List.append_assoc, List.append_assoc]
      exact h.splits (.comma _) (.sign (by decide) (.space ih))

theorem joined (h : AreArguments cs words es vs) {next : List Lexeme} (hnext : EndsWords next) :
    joinLexemes (words ++ next) = words ++ joinLexemes next := by
  induction h with
  | one h => exact h.joined hnext
  | @more cs cs' words words' e v es vs h _ ih =>
      have hcomma : joinLexemes (.comma :: (words' ++ next)) = .comma :: joinLexemes (words' ++ next) := rfl
      rw [List.append_assoc, List.cons_append, h.joined (.comma _), hcomma, ih]
      simp

/-- The arguments behind those that have been read, up to the closing bracket. -/
theorem parsed (h : AreArguments cs words es vs) (function : String) (frames : List Frame) :
    ∀ done : List Tree, (words ++ [Lexeme.closing .round]).foldlM State.next
      ⟨.call function done :: frames, .element⟩ = some ⟨frames, .after (.call function (done ++ es))⟩ := by
  induction h with
  | @one cs words e v h =>
      intro done
      obtain ⟨e', frames', hread, hreduce⟩ := h.parsed (.call function done frames) (.inr rfl)
      rw [List.foldlM_append, hread]
      show (afterOperand frames' e' (.closing .round)).bind _ = _
      rw [afterOperand_closing hreduce]
      rfl
  | @more cs cs' words words' e v es vs h _ ih =>
      intro done
      obtain ⟨e', frames', hread, hreduce⟩ := h.parsed (.call function done frames) (.inr rfl)
      rw [List.append_assoc, List.foldlM_append, hread]
      show (afterOperand frames' e' .comma).bind _ = _
      rw [afterOperand_comma hreduce]
      show (words' ++ [Lexeme.closing .round]).foldlM State.next _ = _
      rw [ih (done ++ [e]), List.append_assoc, List.singleton_append]

theorem keywordsLast (h : AreArguments cs words es vs) : keywordsLast es = true := by
  induction h with
  | @one cs words e v h =>
      cases e with
      | keyword name e' => exact absurd rfl (h.positional name e')
      | _ => rfl
  | @more cs cs' words words' e v es vs h _ ih =>
      cases e with
      | keyword name e' => exact absurd rfl (h.positional name e')
      | _ => exact ih

theorem positional_cons {e : Tree} {v : Value} (h : ∀ name e', e ≠ .keyword name e') (hv : e.value = .ok v)
    (hvs : positional es = .ok vs) : positional (e :: es) = .ok (v :: vs) := by
  cases e with
  | keyword name e' => exact absurd rfl (h name e')
  | _ => simp only [positional, hv, hvs]; rfl

theorem values (h : AreArguments cs words es vs) : positional es = .ok vs := by
  induction h with
  | one h => exact positional_cons h.positional h.value rfl
  | more h _ ih => exact positional_cons h.positional h.value ih

end AreArguments

/-- A name in front of an opening bracket that is a function. -/
structure IsFunction (name : String) : Prop where
  nonempty : name.toList ≠ []
  letters : name.toList.all Char.isAlpha
  notReserved : name ∉ reserved

theorem IsFunction.isAlpha {name : String} (h : IsFunction name) : ∀ c ∈ name.toList, c.isAlpha :=
  List.all_eq_true.mp h.letters

theorem oneLine_call {function : String} (hname : IsFunction function) {cs : List Char} (h : '\n' ∉ cs) :
    '\n' ∉ function.toList ++ '(' :: (cs ++ [')']) := by
  have hletters : '\n' ∉ function.toList := fun hc => absurd (hname.isAlpha _ hc) (by decide)
  simp [hletters, h]

theorem unpadded_call {function : String} (hname : IsFunction function) (cs : List Char) :
    (∀ c ∈ (function.toList ++ '(' :: (cs ++ [')'])).head?, Text.isBlank c = false) ∧
      ∀ c ∈ (function.toList ++ '(' :: (cs ++ [')'])).getLast?, Text.isBlank c = false := by
  obtain ⟨c, cs', hcs⟩ := List.exists_cons_of_ne_nil hname.nonempty
  have hc : c.isAlpha := hname.isAlpha c (by simp [hcs])
  rw [← List.cons_append, ← List.append_assoc, List.getLast?_concat, hcs]
  refine ⟨?_, by simp; decide⟩
  simpa using isBlank_of_isNameLater (by simp [isNameLater, Char.isAlphanum, hc])

/-- **A call whose arguments are read is read.** -/
theorem IsArgument.call {function : String} (hname : IsFunction function) {cs : List Char} {words : List Lexeme}
    {es : List Tree} {vs : List Value} (h : AreArguments cs words es vs) {s : Scalar}
    (hvalue : applyConstructor function vs = .ok s) :
    IsArgument (function.toList ++ '(' :: (cs ++ [')']))
      (.name function :: .opening .round :: (words ++ [.closing .round])) (.call function es) (.scalar s) where
  oneLine := oneLine_call hname h.oneLine
  unpadded := unpadded_call hname cs
  splits := fun _ hnext => by
    simp only [List.append_assoc, List.cons_append, List.nil_append]
    exact .function hname.nonempty hname.isAlpha
      (.sign (by decide) (h.splits (.closing _) (.sign (by decide) hnext)))
  joined := fun {next} _ => by
    have hopening : joinLexemes (.name function :: .opening .round :: (words ++ .closing .round :: next)) =
        .name function :: .opening .round :: joinLexemes (words ++ .closing .round :: next) := rfl
    have hclosing : joinLexemes (.closing .round :: next) = .closing .round :: joinLexemes next := rfl
    simp only [List.append_assoc, List.cons_append, List.nil_append]
    rw [hopening, h.joined (.closing _), hclosing]
  parsed := fun {frames mode} hopen hmode => by
    refine ⟨_, frames, ?_, hopen.reduce _⟩
    have hreserved : reserved.contains function = false := by simpa using hname.notReserved
    have hbefore : beforeOperand frames (.name function) = some ⟨frames, .named function⟩ := by
      simp only [beforeOperand, hreserved, Bool.false_eq_true, if_false]
    have hfirst : State.next ⟨frames, mode⟩ (.name function) = some ⟨frames, .named function⟩ := by
      rcases hmode with rfl | rfl
      · exact hbefore
      · exact hbefore
    rw [List.foldlM_cons, hfirst]
    show (words ++ [Lexeme.closing .round]).foldlM State.next _ = _
    exact h.parsed function frames []
  positional := by simp
  value := by
    simp only [Tree.value, h.keywordsLast, Bool.not_true, Bool.false_eq_true, if_false, h.values]
    show (applyConstructor function vs).bind _ = _
    rw [hvalue]
    rfl

/-- The arguments of a call as they are written. -/
theorem StandsFor.arguments : ∀ {texts : List String} {vs : List Value}, texts ≠ [] →
    List.Forall₂ (fun text v => StandsFor text.toList v) texts vs →
    ∃ words es, AreArguments (", ".intercalate texts).toList words es vs
  | [text], [v], _, .cons ⟨words, e, h⟩ .nil => by
    rw [String.intercalate_singleton]
    exact ⟨words, [e], .one h⟩
  | text :: next :: texts, v :: vs, _, .cons ⟨words, e, h⟩ hs => by
    obtain ⟨words', es, hrest⟩ := StandsFor.arguments (List.cons_ne_nil next texts) hs
    have htext : (", ".intercalate (text :: next :: texts)).toList =
        text.toList ++ ',' :: ' ' :: (", ".intercalate (next :: texts)).toList := by
      rw [String.intercalate_cons_cons, String.toList_append, String.toList_append, List.append_assoc]
      rfl
    rw [htext]
    exact ⟨_, _, .more h hrest⟩

/-- **A constructor call whose arguments are read is read.** -/
theorem StandsFor.call {function : String} (hname : IsFunction function) {texts : List String} {vs : List Value}
    (hne : texts ≠ []) (h : List.Forall₂ (fun text v => StandsFor text.toList v) texts vs) {s : Scalar}
    (hvalue : applyConstructor function vs = .ok s) : StandsFor (callText function texts).toList (.scalar s) := by
  obtain ⟨words, es, hargs⟩ := StandsFor.arguments hne h
  have htext : (callText function texts).toList =
      function.toList ++ '(' :: ((", ".intercalate texts).toList ++ [')']) := by
    simp [callText]
  rw [htext]
  exact ⟨_, _, .call hname hargs hvalue⟩

/-! ## Formulas -/

theorem trimChars_eq {cs : List Char} (hfirst : ∀ c ∈ cs.head?, Text.isBlank c = false)
    (hlast : ∀ c ∈ cs.getLast?, Text.isBlank c = false) : Text.trimChars cs = cs := by
  have hdrop : ∀ {ds : List Char}, (∀ c ∈ ds.head?, Text.isBlank c = false) →
      ds.dropWhile Text.isBlank = ds := by
    intro ds hds
    cases ds with
    | nil => rfl
    | cons d ds => exact List.dropWhile_cons_of_neg (by simp [hds d rfl])
  rw [Text.trimChars, hdrop hfirst, hdrop (by rwa [List.head?_reverse]), List.reverse_reverse]

theorem filter_newline {cs : List Char} (h : '\n' ∉ cs) : cs.filter (· != '\n') = cs := by
  rw [List.filter_eq_self]
  intro c hc
  rw [bne_iff_ne]
  rintro rfl
  exact h hc

/-- **An argument alone is read as a formula.** -/
theorem StandsFor.read {text : String} {v : Value} (h : StandsFor text.toList v) : Formula.read text = .ok v := by
  obtain ⟨words, e, h⟩ := h
  have htrim := trimChars_eq h.unpadded.1 h.unpadded.2
  have hlines := filter_newline h.oneLine
  have hlexemes : lexemes text = some words := by
    have hsplit := (h.splits .nil .nil).lexemesFrom text.toList.length (by simp)
    have hjoined := h.joined .nil
    rw [List.append_nil] at hsplit
    simp only [List.append_nil, joinLexemes] at hsplit hjoined
    simp only [lexemes, hlines, htrim, hsplit, Option.map_some, hjoined]
  have htree : Tree.read words = some e := by
    obtain ⟨e', frames', hread, hreduce⟩ := h.parsed (.bare [] []) (.inl rfl)
    rw [Tree.read, hread]
    show State.finish ⟨frames', .after e'⟩ = some e
    simp only [State.finish, hreduce, grouped]
  simp only [Formula.read, hlexemes, Option.bind_some, htree, h.value]

end TensorEquations.Formula
