import TensorEquations.Scalar.Decoding

/-!
# Formulas that fail in one way only

A formula may be unreadable, divide by zero or ask for a member. Some words lead to the first fault alone: there
is no quotient and no member among them, and a quoted text is the first argument of a call, of which the function
does not look for a quotient in it.

* `AreHarmless` — words of this kind; `joinLexemes` leaves them as they are.
* `Tree.IsHarmless`, `State.IsHarmless` — trees and half-read formulas of such words.
* `State.IsHarmless.next`, `AreHarmless.run` — **one more word, and all words**, keep a half-read formula harmless.
* `Tree.IsHarmless.value` — **a harmless tree has a value or is unreadable**, and its value is a text only if the
  tree is one.
* `Scalar.ofText_fault` — a text whose words are harmless stands for a scalar or is unreadable.
-/

namespace TensorEquations

namespace Formula

/-! ## Words -/

/-- Words of constructor texts other than quoted texts. -/
def Lexeme.isPlain : Lexeme → Bool
  | .name _ => true
  | .number _ => true
  | .operator .minus => true
  | .opening .round => true
  | .closing .round => true
  | .comma => true
  | .equals => true
  | _ => false

/-- Words without quotients and members, in which every quoted text is the first argument of a call. -/
inductive AreHarmless : List Lexeme → Prop
  | nil : AreHarmless []
  | plain {word : Lexeme} {words : List Lexeme} (hword : word.isPlain) (h : AreHarmless words) :
      AreHarmless (word :: words)
  | quoted {function : String} (hfunction : function ≠ "Rational") (text : String) {words : List Lexeme}
      (h : AreHarmless words) : AreHarmless (.name function :: .opening .round :: .quoted text :: words)

theorem joinLexemes_plain {word : Lexeme} (hword : word.isPlain) (words : List Lexeme) :
    joinLexemes (word :: words) = word :: joinLexemes words := by
  cases word with
  | quoted text => cases hword
  | factorial marks => cases hword
  | _ => rfl

/-- No two quoted texts are neighbours, so there is nothing to join. -/
theorem AreHarmless.joined {words : List Lexeme} (h : AreHarmless words) : joinLexemes words = words := by
  induction h with
  | nil => rfl
  | plain hword _ ih => rw [joinLexemes_plain hword, ih]
  | @quoted function _ text words hwords ih =>
      have hquoted : joinLexemes (.quoted text :: words) = .quoted text :: words := by
        simp only [joinLexemes, ih]
        cases hwords with
        | nil => rfl
        | @plain word words hword _ =>
            cases word with
            | quoted _ => cases hword
            | _ => rfl
        | quoted _ _ _ => rfl
      rw [joinLexemes_plain rfl, joinLexemes_plain rfl, hquoted]

/-! ## Half-read formulas -/

/-- Whether the value of a tree may be a text. -/
def Tree.isText : Tree → Bool
  | .quoted _ => true
  | .keyword _ e => e.isText
  | _ => false

/-- Trees of harmless words. -/
inductive Tree.IsHarmless : Tree → Prop
  | name (text : String) : (Tree.name text).IsHarmless
  | number (c : Number) : (Tree.number c).IsHarmless
  | quoted (text : String) : (Tree.quoted text).IsHarmless
  | negate {e : Tree} (h : e.IsHarmless) : (Tree.negate e).IsHarmless
  | minus {l r : Tree} (hl : l.IsHarmless) (hr : r.IsHarmless) : (Tree.binary .minus l r).IsHarmless
  | call {function : String} {arguments : List Tree} (h : ∀ e ∈ arguments, e.IsHarmless)
      (htext : function = "Rational" → ∀ e ∈ arguments, e.isText = false) :
      (Tree.call function arguments).IsHarmless
  | keyword (name : String) {e : Tree} (h : e.IsHarmless) : (Tree.keyword name e).IsHarmless
  | items (bracket : Bracket) {elements : List Tree} (h : ∀ e ∈ elements, e.IsHarmless) :
      (Tree.items bracket elements).IsHarmless

/-- Unfinished operations of harmless words. -/
inductive Frame.IsHarmless : Frame → Prop
  | negate : Frame.negate.IsHarmless
  | minus {e : Tree} (h : e.IsHarmless) : (Frame.left .minus e).IsHarmless
  | bare {elements : List Tree} (h : ∀ e ∈ elements, e.IsHarmless) : (Frame.bare elements).IsHarmless
  | group (bracket : Bracket) {elements : List Tree} (h : ∀ e ∈ elements, e.IsHarmless) :
      (Frame.group bracket elements).IsHarmless
  | call {function : String} {arguments : List Tree} (h : ∀ e ∈ arguments, e.IsHarmless)
      (htext : function = "Rational" → ∀ e ∈ arguments, e.isText = false) :
      (Frame.call function arguments).IsHarmless
  | keyword (name : String) : (Frame.keyword name).IsHarmless

/-- An operand behind some unfinished operations. If its value may be a text, it is an argument of a call that
may have one. -/
structure IsOperand (e : Tree) (frames : List Frame) : Prop where
  tree : e.IsHarmless
  operations : ∀ frame ∈ frames, frame.IsHarmless
  text : e.isText → ∃ function arguments later, frames = .call function arguments :: later ∧
    function ≠ "Rational"

/-- A formula of harmless words read up to some word. -/
def State.IsHarmless (state : State) : Prop :=
  match state.mode with
  | .after e => IsOperand e state.frames
  | .member _ => False
  | _ => ∀ frame ∈ state.frames, frame.IsHarmless

section Steps

variable {e : Tree} {frames : List Frame}

theorem IsOperand.of_not_isText (h : e.IsHarmless) (htext : e.isText = false)
    (hframes : ∀ frame ∈ frames, frame.IsHarmless) : IsOperand e frames :=
  ⟨h, hframes, fun hyes => absurd (htext.symm.trans hyes) (by decide)⟩

/-- Finished operations are operands again. -/
theorem IsOperand.reduce (strength : Nat) : ∀ {frames : List Frame} {e : Tree}, IsOperand e frames →
    IsOperand (reduce strength e frames).1 (reduce strength e frames).2
  | [], _, h => h
  | frame :: frames, e, h => by
    obtain ⟨hframe, hframes⟩ := List.forall_mem_cons.mp h.operations
    rw [Formula.reduce.eq_def]
    dsimp only
    split
    · exact h
    cases hframe with
    | negate => exact IsOperand.reduce strength (.of_not_isText (.negate h.tree) rfl hframes)
    | minus hl => exact IsOperand.reduce strength (.of_not_isText (.minus hl h.tree) rfl hframes)
    | bare _ => exact h
    | group _ _ => exact h
    | call _ _ => exact h
    | keyword _ => exact h

theorem IsOperand.closeElement (h : IsOperand e frames) :
    IsOperand (closeElement e frames).1 (closeElement e frames).2 := by
  have hreduce := h.reduce 1
  unfold Formula.closeElement
  split
  · rename_i e' key frames' heq
    rw [heq] at hreduce
    obtain ⟨-, hframes⟩ := List.forall_mem_cons.mp hreduce.operations
    -- In front of a keyword there is no call, so what is behind it is no text.
    have htext : e'.isText = false := by
      rw [Bool.eq_false_iff]
      intro htext
      obtain ⟨function, arguments, later, hcall, -⟩ := hreduce.text htext
      cases hcall
    exact .of_not_isText (.keyword key hreduce.tree) htext hframes
  · exact hreduce

theorem IsOperand.applyMinus (h : IsOperand e frames) : (applyOperator .minus e frames).IsHarmless := by
  have hreduce := h.reduce Operator.minus.strength
  exact List.forall_mem_cons.mpr ⟨.minus hreduce.tree, hreduce.operations⟩

theorem forall_mem_concat {elements : List Tree} (h : ∀ e ∈ elements, e.IsHarmless) (he : e.IsHarmless) :
    ∀ e' ∈ elements ++ [e], e'.IsHarmless := by
  simpa [or_imp, forall_and] using ⟨h, he⟩

/-- One more argument of a call; no argument of a quotient is a text. -/
theorem IsOperand.argument {function : String} {arguments : List Tree}
    (h : IsOperand e (.call function arguments :: frames)) :
    (∀ e' ∈ arguments ++ [e], e'.IsHarmless) ∧
      (function = "Rational" → ∀ e' ∈ arguments ++ [e], e'.isText = false) := by
  cases (List.forall_mem_cons.mp h.operations).1 with
  | call hall htexts =>
    refine ⟨forall_mem_concat hall h.tree, fun hfunction e' he' => ?_⟩
    rcases List.mem_append.mp he' with he' | he'
    · exact htexts hfunction e' he'
    · rw [List.mem_singleton.mp he', Bool.eq_false_iff]
      intro htext
      obtain ⟨function', arguments', later, hcall, hne⟩ := h.text htext
      cases hcall
      exact hne hfunction

theorem IsOperand.grouped {bracket : Bracket} {elements : List Tree}
    (h : IsOperand e (.group bracket elements :: frames)) : IsOperand (grouped bracket elements e) frames := by
  obtain ⟨hgroup, hframes⟩ := List.forall_mem_cons.mp h.operations
  have htext : e.isText = false := by
    rw [Bool.eq_false_iff]
    intro htext
    obtain ⟨function, arguments, later, hcall, -⟩ := h.text htext
    cases hcall
  cases hgroup with
  | group _ hall =>
    unfold Formula.grouped
    split
    · exact .of_not_isText h.tree htext hframes
    · exact .of_not_isText (.items _ (forall_mem_concat hall h.tree)) rfl hframes

/-- **A plain word after an operand.** -/
theorem IsOperand.afterOperand (h : IsOperand e frames) {word : Lexeme} (hword : word.isPlain) {state : State}
    (hnext : afterOperand frames e word = some state) : state.IsHarmless := by
  have hclose := h.closeElement
  cases word with
  | operator op =>
      cases op with
      | minus =>
          cases hnext
          exact h.applyMinus
      | _ => cases hword
  | comma =>
      simp only [Formula.afterOperand] at hnext
      split at hnext
      · rename_i e' function arguments frames' heq
        cases hnext
        rw [heq] at hclose
        obtain ⟨hall, htexts⟩ := hclose.argument
        exact List.forall_mem_cons.mpr ⟨.call hall htexts, (List.forall_mem_cons.mp hclose.operations).2⟩
      · rename_i e' bracket elements frames' heq
        cases hnext
        rw [heq] at hclose
        obtain ⟨hgroup, hframes⟩ := List.forall_mem_cons.mp hclose.operations
        cases hgroup with
        | group _ hall => exact List.forall_mem_cons.mpr ⟨.group _ (forall_mem_concat hall hclose.tree), hframes⟩
      · rename_i e' elements frames' heq
        cases hnext
        rw [heq] at hclose
        obtain ⟨hbare, hframes⟩ := List.forall_mem_cons.mp hclose.operations
        cases hbare with
        | bare hall => exact List.forall_mem_cons.mpr ⟨.bare (forall_mem_concat hall hclose.tree), hframes⟩
      · cases hnext
  | closing bracket =>
      simp only [Formula.afterOperand] at hnext
      split at hnext
      · rename_i e' function arguments frames' heq
        cases hnext
        rw [heq] at hclose
        obtain ⟨hall, htexts⟩ := hclose.argument
        exact .of_not_isText (.call hall htexts) rfl (List.forall_mem_cons.mp hclose.operations).2
      · rename_i e' bracket' elements frames' _ heq
        rw [heq] at hclose
        split at hnext
        · cases hnext
          exact hclose.grouped
        · cases hnext
      · cases hnext
  | name text => cases hnext
  | number c => cases hnext
  | opening bracket => cases hnext
  | equals => cases hnext
  | quoted text => cases hword
  | factorial marks => cases hword
  | point => cases hword

/-- A plain word where an operand is expected. -/
theorem beforeOperand_isHarmless (h : ∀ frame ∈ frames, frame.IsHarmless) {word : Lexeme} (hword : word.isPlain)
    {state : State} (hnext : beforeOperand frames word = some state) : state.IsHarmless := by
  cases word with
  | name text =>
      simp only [beforeOperand] at hnext
      split at hnext
      · cases hnext
      · cases hnext
        exact h
  | number c =>
      cases hnext
      exact .of_not_isText (.number c) rfl h
  | opening bracket =>
      cases hnext
      exact List.forall_mem_cons.mpr ⟨.group bracket (by simp), h⟩
  | operator op =>
      cases op with
      | minus =>
          cases hnext
          exact List.forall_mem_cons.mpr ⟨.negate, h⟩
      | _ => cases hword
  | closing bracket => cases hnext
  | comma => cases hnext
  | equals => cases hnext
  | quoted text => cases hword
  | factorial marks => cases hword
  | point => cases hword

end Steps

/-- **One more plain word** keeps a half-read formula harmless. -/
theorem State.IsHarmless.next {state state' : State} (h : state.IsHarmless) {word : Lexeme} (hword : word.isPlain)
    (hnext : state.next word = some state') : state'.IsHarmless := by
  obtain ⟨frames, mode⟩ := state
  cases mode with
  | operand => exact beforeOperand_isHarmless h hword hnext
  | element =>
      simp only [State.next] at hnext
      split at hnext
      · cases hnext
        obtain ⟨hcall, hframes⟩ := List.forall_mem_cons.mp h
        cases hcall with
        | call hall htexts => exact IsOperand.of_not_isText (.call hall htexts) rfl hframes
      · split at hnext
        · cases hnext
          obtain ⟨hgroup, hframes⟩ := List.forall_mem_cons.mp h
          cases hgroup with
          | group _ hall => exact IsOperand.of_not_isText (.items _ hall) rfl hframes
        · cases hnext
      · exact beforeOperand_isHarmless h hword hnext
  | named text =>
      simp only [State.next] at hnext
      split at hnext
      · cases hnext
        exact List.forall_mem_cons.mpr ⟨.call (by simp) (by simp), h⟩
      · cases hnext
        exact List.forall_mem_cons.mpr ⟨.keyword text, h⟩
      · exact IsOperand.afterOperand (.of_not_isText (.name text) rfl h) hword hnext
  | after e => exact IsOperand.afterOperand h hword hnext
  | member e => exact h.elim

/-- A quoted text as the first argument of a call. -/
theorem State.IsHarmless.next_quoted {state state' : State} (h : state.IsHarmless) {function : String}
    (hfunction : function ≠ "Rational") (text : String)
    (hnext : [.name function, .opening .round, .quoted text].foldlM State.next state = some state') :
    state'.IsHarmless := by
  obtain ⟨frames, mode⟩ := state
  have hbefore : (beforeOperand frames (.name function)).bind (fun state =>
      [Lexeme.opening .round, .quoted text].foldlM State.next state) = some state' →
      (∀ frame ∈ frames, frame.IsHarmless) → state'.IsHarmless := by
    intro hnext hframes
    simp only [beforeOperand] at hnext
    split at hnext
    · cases hnext
    · cases hnext
      refine ⟨.quoted text, List.forall_mem_cons.mpr ⟨.call (by simp) (by simp), hframes⟩, fun _ => ?_⟩
      exact ⟨function, [], frames, rfl, hfunction⟩
  cases mode with
  | operand => exact hbefore hnext h
  | element => exact hbefore hnext h
  | named name => cases hnext
  | after e => cases hnext
  | member e => exact h.elim

/-- **All words** keep a half-read formula harmless. -/
theorem AreHarmless.run {words : List Lexeme} (hwords : AreHarmless words) {state state' : State}
    (h : state.IsHarmless) (hrun : words.foldlM State.next state = some state') : state'.IsHarmless := by
  induction hwords generalizing state with
  | nil =>
      cases hrun
      exact h
  | @plain word words hword _ ih =>
      rw [List.foldlM_cons] at hrun
      obtain ⟨mid, hmid, hrun⟩ := Option.bind_eq_some_iff.mp hrun
      exact ih (h.next hword hmid) hrun
  | @quoted function hfunction text words _ ih =>
      have hsplit : Lexeme.name function :: .opening .round :: .quoted text :: words =
          [.name function, .opening .round, .quoted text] ++ words := rfl
      rw [hsplit, List.foldlM_append] at hrun
      obtain ⟨mid, hmid, hrun⟩ := Option.bind_eq_some_iff.mp hrun
      exact ih (h.next_quoted hfunction text hmid) hrun

theorem IsOperand.finish {e e' : Tree} {frames : List Frame} {elements : List Tree} (h : IsOperand e frames)
    (hreduce : Formula.reduce 1 e frames = (e', [.bare elements])) :
    (Formula.grouped .round elements e').IsHarmless ∧ (Formula.grouped .round elements e').isText = false := by
  have hroot := h.reduce 1
  rw [hreduce] at hroot
  have htext : e'.isText = false := by
    rw [Bool.eq_false_iff]
    intro htext
    obtain ⟨function, arguments, later, hcall, -⟩ := hroot.text htext
    cases hcall
  cases (List.forall_mem_cons.mp hroot.operations).1 with
  | bare hall =>
    unfold Formula.grouped
    split
    · exact ⟨hroot.tree, htext⟩
    · exact ⟨.items _ (forall_mem_concat hall hroot.tree), rfl⟩

/-- A formula ends after an operand, of which the open brackets are closed, or after a comma. -/
theorem State.finish_cases {frames : List Frame} {mode : Mode} {e : Tree}
    (h : State.finish ⟨frames, mode⟩ = some e) :
    (∃ e' e'' elements, ((∃ text, mode = .named text ∧ e' = .name text) ∨ mode = .after e') ∧
      Formula.reduce 1 e' frames = (e'', [.bare elements]) ∧ e = Formula.grouped .round elements e'') ∨
    (mode = .element ∧ ∃ elements, frames = [.bare elements] ∧ e = .items .round elements) := by
  cases mode with
  | named text =>
      simp only [State.finish] at h
      split at h
      · cases h
        exact .inl ⟨_, _, _, .inl ⟨text, rfl, rfl⟩, ‹_›, rfl⟩
      · cases h
  | after e' =>
      simp only [State.finish] at h
      split at h
      · cases h
        exact .inl ⟨_, _, _, .inr rfl, ‹_›, rfl⟩
      · cases h
  | element =>
      simp only [State.finish] at h
      split at h
      · cases h
        exact .inr ⟨rfl, _, rfl, rfl⟩
      · cases h
  | operand => cases h
  | member e' => cases h

/-- **The tree of harmless words is harmless**, and no text. -/
theorem AreHarmless.tree {words : List Lexeme} (hwords : AreHarmless words) {e : Tree}
    (h : Tree.read words = some e) : e.IsHarmless ∧ e.isText = false := by
  obtain ⟨⟨frames, mode⟩, hrun, hfinish⟩ := Option.bind_eq_some_iff.mp h
  have hstart : State.IsHarmless ⟨[.bare []], .operand⟩ :=
    List.forall_mem_singleton.mpr (.bare (by simp))
  have hstate := hwords.run hstart hrun
  rcases State.finish_cases hfinish with
    ⟨e', e'', elements, ⟨text, rfl, rfl⟩ | rfl, hreduce, rfl⟩ | ⟨rfl, elements, rfl, rfl⟩
  · have hoperand : IsOperand (.name text) frames := .of_not_isText (.name text) rfl hstate
    exact hoperand.finish hreduce
  · have hoperand : IsOperand e' frames := hstate
    exact hoperand.finish hreduce
  · cases (List.forall_mem_cons.mp hstate).1 with
    | bare hall => exact ⟨.items _ hall, rfl⟩

/-! ## Values -/

/-- A result, or the fault that a formula is unreadable. -/
def IsUnreadableAtWorst {α : Type} (r : Except Fault α) : Prop := ∀ fault, r = .error fault → fault = .unreadable

section Values

variable {α β : Type}

theorem IsUnreadableAtWorst.ok (x : α) : IsUnreadableAtWorst (.ok x) := fun _ h => by cases h

theorem IsUnreadableAtWorst.unreadable : IsUnreadableAtWorst (.error .unreadable : Except Fault α) :=
  fun _ h => (Except.error.inj h).symm

theorem IsUnreadableAtWorst.bind {r : Except Fault α} {next : α → Except Fault β} (h : IsUnreadableAtWorst r)
    (hnext : ∀ x, r = .ok x → IsUnreadableAtWorst (next x)) : IsUnreadableAtWorst (r >>= next) := by
  cases r with
  | ok x => exact hnext x rfl
  | error fault =>
      rw [h fault rfl]
      exact .unreadable

theorem Value.asScalar_fault (v : Value) : IsUnreadableAtWorst v.asScalar := by
  cases v with
  | scalar s => exact .ok s
  | _ => exact .unreadable

theorem mapM_asScalar_fault : ∀ vs : List Value, IsUnreadableAtWorst (vs.mapM Value.asScalar)
  | [] => .ok []
  | v :: vs => by
    rw [List.mapM_cons]
    exact (v.asScalar_fault).bind fun _ _ => (mapM_asScalar_fault vs).bind fun _ _ => .ok _

theorem applySign_fault (negative : Bool) (v : Value) : IsUnreadableAtWorst (applySign negative v) := by
  cases v with
  | scalar s => exact .ok _
  | _ => exact .unreadable

theorem integerPart_fault (v : Value) : IsUnreadableAtWorst (integerPart v) := by
  unfold integerPart
  repeat' split
  all_goals first | exact .ok _ | exact .unreadable

theorem decimalPart_fault (v : Value) : IsUnreadableAtWorst (decimalPart v) := by
  unfold decimalPart
  dsimp only
  repeat' split
  all_goals first | exact .ok _ | exact .unreadable

/-- A part of a quotient that is no text has a value or is unreadable. -/
theorem rationalPart_fault {v : Value} (h : ∀ text, v ≠ .text text) : IsUnreadableAtWorst (rationalPart v) := by
  unfold rationalPart
  split
  · split <;> first | exact .ok _ | exact .unreadable
  · exact absurd rfl (h _)
  · exact .unreadable

end Values

/-- **A constructor call is unreadable at worst**, if no part of a quotient is a text. -/
theorem applyConstructor_fault {function : String} {vs : List Value}
    (h : function = "Rational" → ∀ v ∈ vs, ∀ text, v ≠ .text text) :
    IsUnreadableAtWorst (applyConstructor function vs) := by
  have hscalar := fun v => Value.asScalar_fault v
  unfold applyConstructor
  split
  · exact .ok _
  · exact .unreadable
  · exact (integerPart_fault _).bind fun _ _ => .ok _
  · exact .unreadable
  · exact (rationalPart_fault (h rfl _ (by simp))).bind fun _ _ => .ok _
  · exact (rationalPart_fault (h rfl _ (by simp))).bind fun _ _ =>
      (rationalPart_fault (h rfl _ (by simp))).bind fun _ _ => .ok _
  · exact .unreadable
  · exact (decimalPart_fault _).bind fun _ _ => .ok _
  · exact .unreadable
  · exact (hscalar _).bind fun _ _ => (hscalar _).bind fun _ _ => .ok _
  · exact .unreadable
  · exact (mapM_asScalar_fault _).bind fun _ _ => .ok _
  · exact (mapM_asScalar_fault _).bind fun _ _ => .ok _
  · exact (hscalar _).bind fun _ _ => .ok _
  · exact (hscalar _).bind fun _ _ => .ok _
  · exact (hscalar _).bind fun _ _ => .ok _
  · exact (hscalar _).bind fun _ _ => .ok _
  · exact (hscalar _).bind fun _ _ => .ok _
  · exact .ok _

theorem applyMinus_fault (a b : Scalar) : IsUnreadableAtWorst (applyBinary .minus a b) := .ok _

/-- What is known of the value of a tree. -/
def Tree.IsMild (e : Tree) : Prop :=
  IsUnreadableAtWorst e.value ∧ ∀ text, e.value = .ok (.text text) → e.isText = true

theorem positional_fault : ∀ {es : List Tree}, (∀ e ∈ es, e.IsMild) → IsUnreadableAtWorst (positional es)
  | [], _ => .ok []
  | e :: es, h => by
    obtain ⟨he, hes⟩ := List.forall_mem_cons.mp h
    have hlater := positional_fault hes
    cases e with
    | keyword name e =>
        simp only [positional]
        exact IsUnreadableAtWorst.bind he.1 fun _ _ => hlater
    | _ =>
        simp only [positional]
        exact he.1.bind fun _ _ => hlater.bind fun _ _ => .ok _

/-- Arguments of which none is a text. -/
theorem ne_text_of_positional : ∀ {es : List Tree} {vs : List Value}, (∀ e ∈ es, e.IsMild) →
    (∀ e ∈ es, e.isText = false) → positional es = .ok vs → ∀ v ∈ vs, ∀ text, v ≠ .text text
  | [], vs, _, _, hvs => by
    cases hvs
    simp
  | e :: es, vs, h, htext, hvs => by
    obtain ⟨he, hes⟩ := List.forall_mem_cons.mp h
    obtain ⟨hno, hnone⟩ := List.forall_mem_cons.mp htext
    have hfirst : ∀ v, e.value = .ok v → ∀ text, v ≠ .text text := by
      rintro v hv text rfl
      exact absurd ((he.2 text hv).symm.trans hno) (by decide)
    have hcons : (do
        let v ← e.value
        return v :: (← positional es)) = Except.ok vs → ∀ v ∈ vs, ∀ text, v ≠ .text text := by
      intro hvs
      cases hv : e.value with
      | error fault =>
          rw [hv] at hvs
          cases hvs
      | ok v =>
          rw [hv] at hvs
          cases hlater : positional es with
          | error fault =>
              rw [hlater] at hvs
              cases hvs
          | ok later =>
              rw [hlater] at hvs
              cases hvs
              exact List.forall_mem_cons.mpr ⟨hfirst v hv, ne_text_of_positional hes hnone hlater⟩
    cases e with
    | keyword name e =>
        simp only [positional] at hvs
        cases hv : e.value with
        | error fault =>
            rw [hv] at hvs
            cases hvs
        | ok v =>
            rw [hv] at hvs
            exact ne_text_of_positional hes hnone hvs
    | _ =>
        simp only [positional] at hvs
        exact hcons hvs

theorem Tree.IsMild.of_scalar {e : Tree} {r : Except Fault Scalar} (h : IsUnreadableAtWorst r)
    (hvalue : e.value = r.map Value.scalar) : e.IsMild := by
  refine ⟨?_, ?_⟩ <;> rw [hvalue]
  · cases r with
    | ok s => exact .ok _
    | error fault => exact fun fault' heq => h fault' (by cases heq; rfl)
  · intro text htext
    cases r <;> cases htext

/-- **A harmless tree has a value or is unreadable**; if the value is a text, so is the tree. -/
theorem Tree.IsHarmless.value {e : Tree} (h : e.IsHarmless) : e.IsMild := by
  induction h with
  | name text =>
      refine ⟨.ok _, fun inner htext => ?_⟩
      simp only [Tree.value, nameValue] at htext
      repeat' split at htext
      all_goals cases htext
  | number c => exact ⟨.ok _, fun _ htext => by cases htext⟩
  | quoted text => exact ⟨.ok _, fun _ _ => rfl⟩
  | @negate e _ ih =>
      refine ⟨?_, fun text htext => ?_⟩
      · rw [Tree.value]
        exact ih.1.bind fun v _ => applySign_fault true v
      · rw [Tree.value] at htext
        rcases hv : e.value with _ | v
        · rw [hv] at htext
          cases htext
        · rw [hv] at htext
          cases v <;> cases htext
  | @minus l r _ _ ihl ihr =>
      refine ⟨?_, fun text htext => ?_⟩
      · rw [Tree.value]
        exact ihl.1.bind fun v _ => ihr.1.bind fun w _ =>
          v.asScalar_fault.bind fun _ _ => w.asScalar_fault.bind fun _ _ => applyMinus_fault _ _
      · rw [Tree.value] at htext
        rcases hv : l.value with _ | v
        · rw [hv] at htext
          cases htext
        · rcases hw : r.value with _ | w
          · rw [hv, hw] at htext
            cases htext
          · rw [hv, hw] at htext
            cases v with
            | scalar a => cases w <;> cases htext
            | _ => cases htext
  | @call function arguments _ htexts ih =>
      rcases hkeywords : keywordsLast arguments with _ | _
      · have hvalue : (Tree.call function arguments).value = .error .unreadable := by
          simp [Tree.value, hkeywords]
        exact .of_scalar (r := .error .unreadable) .unreadable hvalue
      · have hcall : IsUnreadableAtWorst (positional arguments >>= applyConstructor function) :=
          (positional_fault ih).bind fun vs hvs => applyConstructor_fault fun hfunction =>
            ne_text_of_positional ih (htexts hfunction) hvs
        refine .of_scalar hcall ?_
        simp only [Tree.value, hkeywords, Bool.not_true, Bool.false_eq_true, if_false]
        rcases positional arguments with _ | vs
        · rfl
        · show (applyConstructor function vs).bind _ = (applyConstructor function vs).map _
          cases applyConstructor function vs <;> rfl
  | keyword name _ ih =>
      refine ⟨?_, fun text htext => ?_⟩
      · rw [Tree.value]
        exact ih.1
      · rw [Tree.value] at htext
        exact ih.2 text htext
  | @items bracket elements _ ih =>
      refine ⟨?_, fun text htext => ?_⟩
      · rw [Tree.value]
        exact (positional_fault ih).bind fun _ _ => .ok _
      · rw [Tree.value] at htext
        rcases hvs : positional elements with _ | vs <;> rw [hvs] at htext <;> cases htext

/-! ## Texts -/

/-- Characters whose words are harmless, if they can be told apart. -/
def GivesHarmless (cs : List Char) : Prop := ∀ bound words, lexemesFrom bound cs = some words → AreHarmless words

/-- The characters of a text that count. -/
def body (text : String) : List Char := Text.trimChars (text.toList.filter (· != '\n'))

/-- **A text with harmless words is unreadable at worst**, and its value is not a text again. -/
theorem read_fault {text : String} (h : GivesHarmless (body text)) :
    IsUnreadableAtWorst (Formula.read text) ∧ ∀ inner, Formula.read text ≠ .ok (.text inner) := by
  unfold Formula.read
  split
  · rename_i e htree
    obtain ⟨joined, hjoined, htree⟩ := Option.bind_eq_some_iff.mp htree
    obtain ⟨words, hwords, rfl⟩ := Option.map_eq_some_iff.mp hjoined
    have hharmless := h _ words hwords
    rw [hharmless.joined] at htree
    obtain ⟨he, htext⟩ := hharmless.tree htree
    refine ⟨he.value.1, fun inner hinner => ?_⟩
    exact absurd (htext.symm.trans (he.value.2 inner hinner)) (by decide)
  · exact ⟨.unreadable, fun inner hinner => by cases hinner⟩

end Formula

/-- **A text with harmless words stands for a scalar or is unreadable.** -/
theorem Scalar.ofText_fault {text : String} (h : Formula.GivesHarmless (Formula.body text)) :
    Formula.IsUnreadableAtWorst (Scalar.ofText text) := by
  obtain ⟨hfault, htext⟩ := Formula.read_fault h
  refine hfault.bind fun value hvalue => ?_
  cases value with
  | text inner => exact absurd hvalue (htext inner)
  | scalar s => exact .ok s
  | truth b => exact .ok _
  | nothing => exact .unreadable
  | items bracket elements => exact .ok _

end TensorEquations
