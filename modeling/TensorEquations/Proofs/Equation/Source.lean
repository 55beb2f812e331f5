import Mathlib
import TensorEquations.Equation.Tag

/-!
# What a source text says

* `Reads`, `Segment` — the beginning of a source as plain characters and closed tags.
* `IsSplit` — the fields of a tag and what stands behind the last colon that counts; they are
  unique, and there are five fields exactly if there are five colons.
* `Means`, `Faulty` — the tag that closed text stands for; what is wrong with it, and where.
* `Renders` — the pieces that segments stand for.
* `Location.PointsAt` — a location told by what stands in front of it.
* `parseEquation_correct` — a source is read exactly if all its tags are closed and mean
  something; else the error is that of its first bad tag, at its place.
-/

namespace TensorEquations

/-- What stands in front of the first mark, and behind it, is unique. -/
theorem first_mark_unique {m : Char} : ∀ {a b s t : List Char}, m ∉ a → m ∉ b →
    a ++ m :: s = b ++ m :: t → a = b ∧ s = t
  | [], [], _, _, _, _, h => ⟨rfl, (List.cons.inj h).2⟩
  | [], _ :: _, _, _, _, hb, h => absurd (List.cons.inj h).1 (List.ne_of_not_mem_cons hb)
  | _ :: _, [], _, _, ha, _, h => absurd (List.cons.inj h).1.symm (List.ne_of_not_mem_cons ha)
  | _ :: a, _ :: b, s, t, ha, hb, h => by
    rw [List.cons_append, List.cons_append, List.cons.injEq] at h
    obtain ⟨rfl, h⟩ := h
    obtain ⟨rfl, rfl⟩ :=
      first_mark_unique (List.not_mem_of_not_mem_cons ha) (List.not_mem_of_not_mem_cons hb) h
    exact ⟨rfl, rfl⟩

/-! ## Text inside of a tag -/

/-- Text that may stand between the ends of a tag: it has neither the closing mark nor `//`. -/
def IsEnclosed (inner : List Char) : Prop := '>' ∉ inner ∧ ¬ ['/', '/'] <:+: inner

theorem IsEnclosed.nil : IsEnclosed [] := ⟨List.not_mem_nil, by simp⟩

/-- One more character in front leaves a text enclosed unless it closes the tag or opens `//`. -/
theorem IsEnclosed.cons {c : Char} {cs : List Char} (h : IsEnclosed cs) (hclose : c ≠ '>')
    (hcomment : ¬ ['/', '/'] <+: c :: cs) : IsEnclosed (c :: cs) :=
  ⟨fun hm => (List.mem_cons.mp hm).elim hclose.symm h.1,
    fun hi => (List.infix_cons_iff.mp hi).elim hcomment h.2⟩

theorem IsEnclosed.tail {c : Char} {cs : List Char} (h : IsEnclosed (c :: cs)) : IsEnclosed cs :=
  ⟨fun hm => h.1 (List.mem_cons_of_mem _ hm), fun hi => h.2 (hi.trans (List.suffix_cons c cs).isInfix)⟩

/-- The closing mark is no slash, so it completes no `//`. -/
theorem comment_prefix_close {c : Char} {cs rest : List Char} :
    ['/', '/'] <+: c :: (cs ++ '>' :: rest) ↔ ['/', '/'] <+: c :: cs := by
  cases cs <;> simp [List.cons_prefix_cons]

/-! ## Fields -/

/-- Fields in front of colons, at most `bound` of them, and what stands behind the last one. -/
structure IsSplit (bound : Nat) (inner : List Char) (fields : List (List Char)) (last : List Char) :
    Prop where
  joined : inner = fields.flatMap (· ++ [':']) ++ last
  colonless : ∀ f ∈ fields, ':' ∉ f
  length_le : fields.length ≤ bound
  last_colonless : fields.length < bound → ':' ∉ last

namespace IsSplit

variable {bound : Nat} {inner last f : List Char} {fields : List (List Char)}

/-- Text without a colon, or behind the last colon that counts, is no field. -/
theorem nil (h : 0 < bound → ':' ∉ last) : IsSplit bound last [] last :=
  ⟨rfl, List.forall_mem_nil _, Nat.zero_le _, h⟩

/-- One more field in front. -/
theorem cons (hf : ':' ∉ f) (h : IsSplit bound inner fields last) :
    IsSplit (bound + 1) (f ++ ':' :: inner) (f :: fields) last where
  joined := by simp [h.joined]
  colonless := List.forall_mem_cons.mpr ⟨hf, h.colonless⟩
  length_le := Nat.succ_le_succ h.length_le
  last_colonless hl := h.last_colonless (Nat.lt_of_succ_lt_succ hl)

/-- The fields behind the first one. -/
theorem tail (h : IsSplit bound inner (f :: fields) last) :
    ∃ rest, inner = f ++ ':' :: rest ∧ ':' ∉ f ∧ IsSplit (bound - 1) rest fields last := by
  obtain ⟨hf, hfs⟩ := List.forall_mem_cons.mp h.colonless
  have hlength : fields.length + 1 ≤ bound := h.length_le
  refine ⟨fields.flatMap (· ++ [':']) ++ last, by simp [h.joined], hf, rfl, hfs, by omega,
    fun hl => h.last_colonless ?_⟩
  rw [List.length_cons]
  omega

/-- Text that is no field, though a field may follow, has no colon. -/
theorem ne_nil_of_colon (h : IsSplit bound inner fields last) (hcolon : ':' ∈ inner) (hbound : 0 < bound) :
    fields ≠ [] := by
  rintro rfl
  have hlast : inner = last := h.joined
  exact h.last_colonless hbound (hlast ▸ hcolon)

/-- **A text has one split only.** -/
theorem unique : ∀ {bound : Nat} {inner last last' : List Char} {fields fields' : List (List Char)},
    IsSplit bound inner fields last → IsSplit bound inner fields' last' → fields = fields' ∧ last = last'
  | _, _, _, _, [], [], h, h' => ⟨rfl, h.joined.symm.trans h'.joined⟩
  | _, _, _, _, [], _ :: _, h, h' => by
    obtain ⟨rest, rfl, -, -⟩ := h'.tail
    exact absurd rfl (h.ne_nil_of_colon (by simp) (Nat.lt_of_lt_of_le (Nat.succ_pos _) h'.length_le))
  | _, _, _, _, _ :: _, [], h, h' => by
    obtain ⟨rest, rfl, -, -⟩ := h.tail
    exact absurd rfl (h'.ne_nil_of_colon (by simp) (Nat.lt_of_lt_of_le (Nat.succ_pos _) h.length_le))
  | _, _, _, _, _ :: _, _ :: _, h, h' => by
    obtain ⟨rest, rfl, hf, h⟩ := h.tail
    obtain ⟨rest', heq, hg, h'⟩ := h'.tail
    obtain ⟨rfl, rfl⟩ := first_mark_unique hf hg heq
    obtain ⟨rfl, rfl⟩ := unique h h'
    exact ⟨rfl, rfl⟩

/-- There are as many fields as colons, up to the bound. -/
theorem length_eq : ∀ {bound : Nat} {inner last : List Char} {fields : List (List Char)},
    IsSplit bound inner fields last → fields.length = min bound (inner.count ':')
  | 0, _, _, _, h => by simpa using h.length_le
  | bound + 1, _, _, [], h => by
    have hlast : ':' ∉ _ := h.last_colonless (Nat.succ_pos bound)
    rw [h.joined]
    simp [List.count_eq_zero.mpr hlast]
  | bound + 1, _, _, f :: fs, h => by
    obtain ⟨rest, rfl, hf, h⟩ := h.tail
    have ih := length_eq h
    simp only [List.length_cons, List.count_append, List.count_eq_zero.mpr hf, List.count_cons_self]
    omega

end IsSplit

theorem exists_split : ∀ (bound : Nat) (inner : List Char), ∃ fields last, IsSplit bound inner fields last
  | 0, inner => ⟨[], inner, .nil fun h => absurd h (Nat.lt_irrefl 0)⟩
  | bound + 1, inner => by
    by_cases hcolon : ':' ∈ inner
    · obtain ⟨f, rest, rfl, hf⟩ := List.eq_append_cons_of_mem hcolon
      obtain ⟨fields, last, h⟩ := exists_split bound rest
      exact ⟨f :: fields, last, h.cons hf⟩
    · exact ⟨[], inner, .nil fun _ => hcolon⟩

/-- Fields with their offsets, the first one at `start`. -/
def placed (start : Nat) : List (List Char) → List TagField
  | [] => []
  | f :: fs => ⟨f, start⟩ :: placed (start + f.length + 1) fs

/-- The offset of a field: in front of it stand the earlier ones, each with its colon. -/
theorem placed_append : ∀ (start : Nat) (fs gs : List (List Char)),
    placed start (fs ++ gs) = placed start fs ++ placed (start + (fs.flatMap (· ++ [':'])).length) gs
  | _, [], _ => rfl
  | start, f :: fs, gs => by
    simp only [List.cons_append, placed, placed_append, List.flatMap_cons, List.length_append,
      List.length_singleton, Nat.add_assoc]

/-- Inside of a tag a character that neither ends a field nor the tag goes into the current field. -/
theorem readFields_plain {c : Char} {cs : List Char} (s : FieldState) (offset : Nat) (hclose : c ≠ '>')
    (hcomment : ¬ ['/', '/'] <+: c :: cs) (hcolon : ¬ (c = ':' ∧ s.fields.length < 5)) :
    readFields s offset (c :: cs) = readFields ⟨s.fields, c :: s.current, s.start⟩ (offset + 1) cs := by
  rw [readFields.eq_def]
  split
  · next h => exact nomatch h
  · next h => exact absurd (List.cons.inj h).1 hclose
  · next h => exact absurd (h ▸ ⟨_, rfl⟩) hcomment
  · next h =>
    obtain ⟨rfl, rfl⟩ := List.cons.inj h
    rw [if_neg fun hlt => hcolon ⟨rfl, hlt⟩]
  · next h =>
    obtain ⟨rfl, rfl⟩ := List.cons.inj h
    rfl

/-- Reading enclosed text splits it at its colons; `current` holds no colon while colons count. -/
theorem readFields_enclosed : ∀ {inner : List Char} (rest : List Char) (s : FieldState), IsEnclosed inner →
    s.fields.length ≤ 5 → (s.fields.length < 5 → ':' ∉ s.current) →
    ∃ fields last, IsSplit (5 - s.fields.length) (s.current.reverse ++ inner) fields last ∧
      readFields s (s.start + s.current.length) (inner ++ '>' :: rest) =
        some (s.fields.reverse ++ placed s.start fields, last, rest,
          s.start + s.current.length + inner.length + 1)
  | [], rest, ⟨F, C, st⟩, _, _, hC => by
    refine ⟨[], C.reverse, ?_, ?_⟩
    · rw [List.append_nil]
      exact .nil fun h => by simpa using hC (Nat.lt_of_sub_pos h)
    · simp [readFields, placed]
  | c :: inner, rest, ⟨F, C, st⟩, henclosed, hF, hC => by
    have hclose : c ≠ '>' := (List.ne_of_not_mem_cons henclosed.1).symm
    have hcomment : ¬ ['/', '/'] <+: c :: (inner ++ '>' :: rest) := fun h =>
      henclosed.2 (comment_prefix_close.mp h).isInfix
    by_cases hcolon : c = ':' ∧ F.length < 5
    · obtain ⟨rfl, hlt⟩ := hcolon
      obtain ⟨fields, last, hsplit, hread⟩ :=
        readFields_enclosed rest ⟨⟨C.reverse, st⟩ :: F, [], st + C.length + 1⟩ henclosed.tail hlt
          fun _ => List.not_mem_nil
      refine ⟨C.reverse :: fields, last, ?_, ?_⟩
      · have hbound : 5 - F.length = 5 - (F.length + 1) + 1 := by omega
        rw [hbound]
        exact .cons (by simpa using hC hlt) hsplit
      · rw [List.cons_append, readFields, if_pos hlt]
        refine hread.trans ?_
        simp [placed]
        omega
    · obtain ⟨fields, last, hsplit, hread⟩ :=
        readFields_enclosed rest ⟨F, c :: C, st⟩ henclosed.tail hF fun hlt =>
          fun hm => (List.mem_cons.mp hm).elim (fun h => hcolon ⟨h.symm, hlt⟩) (hC hlt)
      refine ⟨fields, last, by simpa using hsplit, ?_⟩
      rw [List.cons_append, readFields_plain _ _ hclose hcomment hcolon]
      refine hread.trans ?_
      simp only [List.length_cons]
      congr 5
      omega

/-- A tag that has been read was closed. -/
theorem exists_enclosed_of_readFields {s : FieldState} {offset : Nat} {cs : List Char}
    {r : List TagField × List Char × List Char × Nat} (h : readFields s offset cs = some r) :
    ∃ inner rest, IsEnclosed inner ∧ cs = inner ++ '>' :: rest := by
  fun_induction readFields s offset cs with
  | case1 => cases h
  | case2 _ _ cs => exact ⟨[], cs, .nil, rfl⟩
  | case3 => cases h
  | case4 s offset cs _ ih =>
    obtain ⟨inner, rest, henclosed, rfl⟩ := ih h
    exact ⟨':' :: inner, rest, henclosed.cons (by decide) (by simp [List.cons_prefix_cons]), rfl⟩
  | case5 s offset cs _ ih =>
    obtain ⟨inner, rest, henclosed, rfl⟩ := ih h
    exact ⟨':' :: inner, rest, henclosed.cons (by decide) (by simp [List.cons_prefix_cons]), rfl⟩
  | case6 s offset c cs hclose hcomment _ ih =>
    obtain ⟨inner, rest, henclosed, rfl⟩ := ih h
    refine ⟨c :: inner, rest, henclosed.cons hclose fun hp => ?_, rfl⟩
    obtain ⟨rest', heq⟩ := comment_prefix_close.mpr hp
    obtain ⟨rfl, heq⟩ := List.cons.inj heq
    exact hcomment _ rfl heq.symm

/-! ## Tags -/

/-- The text of a field is a number: ASCII digits, at least one, and blanks around them. -/
def IsNumeral (f : List Char) : Prop := Text.trimChars f ≠ [] ∧ ∀ c ∈ Text.trimChars f, c.isDigit

/-- A number has no more digits than may be read. -/
def IsShort (f : List Char) : Prop := (Text.trimChars f).length ≤ Text.digitLimit

/-- The number that a field writes. -/
def fieldSize (f : List Char) : Int := Text.digitsValue (Text.trimChars f)

/-- What is wrong with a number field. -/
inductive BadField (label : String) (f : List Char) : TagError → Prop
  | notNumeral (h : ¬ IsNumeral f) : BadField label f (.badNumber label (String.ofList f))
  | long (h : IsNumeral f) (hlong : ¬ IsShort f) : BadField label f (.tooManyDigits (Text.trimChars f).length)

theorem not_isNumeral_iff {f : List Char} :
    ¬ IsNumeral f ↔ ((Text.trimChars f).isEmpty || !(Text.trimChars f).all Char.isDigit) = true := by
  rw [IsNumeral]
  simp only [Bool.or_eq_true, List.isEmpty_iff, Bool.not_eq_true', ← Bool.not_eq_true, List.all_eq_true]
  tauto

theorem readSize_of_numeral (label : String) {f : List Char} (n : Nat) (h : IsNumeral f ∧ IsShort f) :
    readSize label ⟨f, n⟩ = .ok (fieldSize f) := by
  obtain ⟨h, hshort⟩ := h
  rw [readSize, if_neg (not_isNumeral_iff.not.mp (not_not.mpr h)), if_neg (Nat.not_lt.mpr hshort), fieldSize]

theorem readSize_of_bad {label : String} {f : List Char} {e : TagError} (n : Nat) (h : BadField label f e) :
    readSize label ⟨f, n⟩ = .error (e, n) := by
  cases h with
  | notNumeral h => rw [readSize, if_pos (not_isNumeral_iff.mp h)]
  | long h hlong =>
    rw [readSize, if_neg (not_isNumeral_iff.not.mp (not_not.mpr h)), if_pos (Nat.lt_of_not_le hlong)]

/-- A field writes a number that can be read, or something is wrong with it. -/
theorem numeral_or_bad (label : String) (f : List Char) :
    (IsNumeral f ∧ IsShort f) ∨ ∃ e, BadField label f e := by
  by_cases h : IsNumeral f
  · by_cases hshort : IsShort f
    · exact .inl ⟨h, hshort⟩
    · exact .inr ⟨_, .long h hshort⟩
  · exact .inr ⟨_, .notNumeral h⟩

/-- The tag that closed text stands for, `#<` being at `offset`: five colons, four numbers. -/
def Means (inner : List Char) (offset : Nat) (t : CoefficientTag) : Prop :=
  ∃ id l ld r rd indices, IsSplit 5 inner [id, l, ld, r, rd] indices ∧
    (∀ f ∈ [l, ld, r, rd], IsNumeral f ∧ IsShort f) ∧
    t = { key := .canonical ⟨fieldSize l, fieldSize ld, fieldSize r, fieldSize rd⟩
                   (String.ofList (Text.trimChars id))
          indices := String.ofList indices
          offset := offset }

/-- The names of the number fields. -/
def sizeLabels : List String := ["l", "ld", "r", "rd"]

/-- What is wrong with closed text, `#<` being at `offset`, and the offset of what is wrong: too few
colons, or a bad number field behind `id` and the good ones in `fine`. -/
inductive Faulty (inner : List Char) (offset : Nat) : TagError → Nat → Prop
  | fewColons (h : inner.count ':' < 5) : Faulty inner offset .tooFewFields offset
  | field {id f last : List Char} {fine after : List (List Char)} {label : String} {e : TagError}
      (hsplit : IsSplit 5 inner (id :: (fine ++ f :: after)) last) (hfive : 5 ≤ inner.count ':')
      (hfine : ∀ g ∈ fine, IsNumeral g ∧ IsShort g) (hlabel : sizeLabels[fine.length]? = some label)
      (hbad : BadField label f e) :
      Faulty inner offset e (offset + 2 + ((id :: fine).flatMap (· ++ [':'])).length)

/-- Where the tag means something, its fields give that tag. -/
theorem readTag_of_means {inner last : List Char} {fields : List (List Char)} {offset : Nat}
    {t : CoefficientTag} (hsplit : IsSplit 5 inner fields last) (h : Means inner offset t) :
    readTag (placed (offset + 2) fields) last offset = .ok t := by
  obtain ⟨id, l, ld, r, rd, indices, hsplit', hsizes, rfl⟩ := h
  obtain ⟨rfl, rfl⟩ := hsplit.unique hsplit'
  simp only [List.forall_mem_cons] at hsizes
  obtain ⟨hl, hld, hr, hrd, -⟩ := hsizes
  simp only [placed, readTag, readSize_of_numeral _ _ hl, readSize_of_numeral _ _ hld,
    readSize_of_numeral _ _ hr, readSize_of_numeral _ _ hrd, bind, Except.bind, pure, Except.pure]

/-- Too few fields are no tag. -/
theorem readTag_of_length_lt {fields : List TagField} {last : List Char} {offset : Nat}
    (h : fields.length < 5) : readTag fields last offset = .error (.tooFewFields, offset) := by
  unfold readTag
  split
  · simp at h
  · rfl

/-- The first bad number field of five fields decides. -/
theorem readTag_of_bad {id f last : List Char} {fine after : List (List Char)} {label : String} {e : TagError}
    {start offset : Nat} (hlength : after.length + fine.length = 3)
    (hfine : ∀ g ∈ fine, IsNumeral g ∧ IsShort g) (hlabel : sizeLabels[fine.length]? = some label)
    (hbad : BadField label f e) :
    readTag (placed start ((id :: fine) ++ f :: after)) last offset =
      .error (e, start + ((id :: fine).flatMap (· ++ [':'])).length) := by
  rw [placed_append]
  generalize start + ((id :: fine).flatMap (· ++ [':'])).length = n
  match fine, after, hlength with
  | [], [_, _, _], _ =>
    obtain rfl : "l" = label := Option.some.inj hlabel
    simp only [placed, List.cons_append, List.nil_append, readTag, readSize_of_bad _ hbad, bind, Except.bind]
  | [g], [_, _], _ =>
    obtain rfl : "ld" = label := Option.some.inj hlabel
    have hg := hfine g (by simp)
    simp only [placed, List.cons_append, List.nil_append, readTag, readSize_of_numeral _ _ hg,
      readSize_of_bad _ hbad, bind, Except.bind]
  | [g, g'], [_], _ =>
    obtain rfl : "r" = label := Option.some.inj hlabel
    have hg := hfine g (by simp)
    have hg' := hfine g' (by simp)
    simp only [placed, List.cons_append, List.nil_append, readTag, readSize_of_numeral _ _ hg,
      readSize_of_numeral _ _ hg', readSize_of_bad _ hbad, bind, Except.bind]
  | [g, g', g''], [], _ =>
    obtain rfl : "rd" = label := Option.some.inj hlabel
    have hg := hfine g (by simp)
    have hg' := hfine g' (by simp)
    have hg'' := hfine g'' (by simp)
    simp only [placed, List.cons_append, List.nil_append, readTag, readSize_of_numeral _ _ hg,
      readSize_of_numeral _ _ hg', readSize_of_numeral _ _ hg'', readSize_of_bad _ hbad, bind, Except.bind]

@[simp] theorem length_placed : ∀ (start : Nat) (fs : List (List Char)), (placed start fs).length = fs.length
  | _, [] => rfl
  | start, f :: fs => congrArg (· + 1) (length_placed (start + f.length + 1) fs)

/-- Where the tag is faulty, its fields give that fault. -/
theorem readTag_of_faulty {inner last : List Char} {fields : List (List Char)} {offset n : Nat} {e : TagError}
    (hsplit : IsSplit 5 inner fields last) (h : Faulty inner offset e n) :
    readTag (placed (offset + 2) fields) last offset = .error (e, n) := by
  have hlength := hsplit.length_eq
  cases h with
  | fewColons h => exact readTag_of_length_lt (by rw [length_placed]; omega)
  | field hsplit' hfive hfine hlabel hbad =>
    obtain ⟨rfl, rfl⟩ := hsplit.unique hsplit'
    refine readTag_of_bad ?_ hfine hlabel hbad
    simp only [List.length_cons, List.length_append] at hlength
    omega

/-- Of fields, either all write numbers or there is a first one that does not. -/
theorem all_numerals_or_first_bad : ∀ (labels : List String) (fs : List (List Char)),
    fs.length ≤ labels.length →
    (∀ f ∈ fs, IsNumeral f ∧ IsShort f) ∨ ∃ fine f after label e, fs = fine ++ f :: after ∧
      (∀ g ∈ fine, IsNumeral g ∧ IsShort g) ∧ labels[fine.length]? = some label ∧ BadField label f e
  | _, [], _ => .inl (List.forall_mem_nil _)
  | [], _ :: _, h => absurd h (Nat.not_succ_le_zero _)
  | label :: labels, f :: fs, h => by
    rcases numeral_or_bad label f with hf | ⟨e, hbad⟩
    · rcases all_numerals_or_first_bad labels fs (Nat.le_of_succ_le_succ h) with
        hfs | ⟨fine, g, after, label', e, rfl, hfine, hlabel, hbad⟩
      · exact .inl (List.forall_mem_cons.mpr ⟨hf, hfs⟩)
      · exact .inr ⟨f :: fine, g, after, label', e, rfl, List.forall_mem_cons.mpr ⟨hf, hfine⟩,
          by simpa using hlabel, hbad⟩
    · exact .inr ⟨[], f, fs, label, e, rfl, List.forall_mem_nil _, rfl, hbad⟩

/-- Closed text means a tag or is faulty. -/
theorem means_or_faulty {inner last : List Char} {fields : List (List Char)} (offset : Nat)
    (hsplit : IsSplit 5 inner fields last) :
    (∃ t, Means inner offset t) ∨ ∃ e n, Faulty inner offset e n := by
  have hlength := hsplit.length_eq
  by_cases hfive : 5 ≤ inner.count ':'
  · rw [Nat.min_eq_left hfive] at hlength
    match fields, hlength with
    | [id, l, ld, r, rd], _ =>
      rcases all_numerals_or_first_bad sizeLabels [l, ld, r, rd] (Nat.le_refl 4) with
        hsizes | ⟨fine, f, after, label, e, heq, hfine, hlabel, hbad⟩
      · exact .inl ⟨_, id, l, ld, r, rd, last, hsplit, hsizes, rfl⟩
      · exact .inr ⟨e, _, .field (heq ▸ hsplit) hfive hfine hlabel hbad⟩
  · exact .inr ⟨_, _, .fewColons (Nat.lt_of_not_le hfive)⟩

/-! ## Sources -/

/-- A piece of a source as it is written: a character, or a tag with the text between its ends. -/
inductive Segment where
  | plain (c : Char)
  | tag (inner : List Char)

/-- The characters that a segment is written with. -/
def Segment.chars : Segment → List Char
  | plain c => [c]
  | tag inner => '#' :: '<' :: (inner ++ ['>'])

theorem Segment.length_chars_plain (c : Char) (ss : List Segment) :
    ((plain c :: ss).flatMap chars).length = 1 + (ss.flatMap chars).length := by
  rw [List.flatMap_cons, List.length_append, chars, List.length_singleton]

theorem Segment.length_chars_tag (inner : List Char) (ss : List Segment) :
    ((tag inner :: ss).flatMap chars).length = inner.length + 3 + (ss.flatMap chars).length := by
  rw [List.flatMap_cons, List.length_append, chars]
  simp

/-- The beginning of a source read from left to right, and what follows it: outside of tags neither
`//` nor `#<` is plain, and every tag is closed. -/
inductive Reads : List Char → List Segment → List Char → Prop
  | stop (cs : List Char) : Reads cs [] cs
  | plain {c : Char} {cs rest : List Char} {ss : List Segment} (hcomment : ¬ ['/', '/'] <+: c :: cs)
      (htag : ¬ ['#', '<'] <+: c :: cs) (h : Reads cs ss rest) : Reads (c :: cs) (.plain c :: ss) rest
  | tag {inner cs rest : List Char} {ss : List Segment} (henclosed : IsEnclosed inner)
      (h : Reads cs ss rest) : Reads ('#' :: '<' :: (inner ++ '>' :: cs)) (.tag inner :: ss) rest

/-- A source ends where nothing follows or at `//`. -/
def IsEnd (cs : List Char) : Prop := cs = [] ∨ ['/', '/'] <+: cs

/-- The pieces that segments stand for, the first of them at an offset. -/
inductive Renders : Nat → List Segment → List Piece → Prop
  | nil (offset : Nat) : Renders offset [] []
  | plain {offset : Nat} {c : Char} {ss : List Segment} {ps : List Piece} (h : Renders (offset + 1) ss ps) :
      Renders offset (.plain c :: ss) (.plain c :: ps)
  | tag {offset : Nat} {inner : List Char} {t : CoefficientTag} {ss : List Segment} {ps : List Piece}
      (hmeans : Means inner offset t) (h : Renders (offset + inner.length + 3) ss ps) :
      Renders offset (.tag inner :: ss) (.tag t :: ps)

/-- What is wrong with a tag, `#<` being at `offset` and `cs` behind it: it is not closed, or it is
closed and faulty. -/
inductive Offends (cs : List Char) (offset : Nat) : TagError → Nat → Prop
  | unterminated (h : ¬ ∃ inner rest, IsEnclosed inner ∧ cs = inner ++ '>' :: rest) :
      Offends cs offset .unterminated offset
  | faulty {inner rest : List Char} {e : TagError} {n : Nat} (henclosed : IsEnclosed inner)
      (hcs : cs = inner ++ '>' :: rest) (h : Faulty inner offset e n) : Offends cs offset e n

/-- Reading a closed tag: its fields, and on behind it. -/
theorem readPieces_tag {inner : List Char} (offset : Nat) (rest : List Char) (h : IsEnclosed inner) :
    ∃ fields last, IsSplit 5 inner fields last ∧
      readPieces offset ('#' :: '<' :: (inner ++ '>' :: rest)) = (do
        let tag ← readTag (placed (offset + 2) fields) last offset
        let pieces ← readPieces (offset + inner.length + 3) rest
        return .tag tag :: pieces) := by
  obtain ⟨fields, last, hsplit, hread⟩ :=
    readFields_enclosed rest ⟨[], [], offset + 2⟩ h (Nat.zero_le 5) fun _ => List.not_mem_nil
  refine ⟨fields, last, hsplit, ?_⟩
  rw [readPieces]
  split
  · next heq => cases hread.symm.trans heq
  · next fields' last' rest' next heq =>
    obtain ⟨rfl, rfl, rfl, rfl⟩ : placed (offset + 2) fields = fields' ∧ last = last' ∧
        rest = rest' ∧ offset + 2 + inner.length + 1 = next := by simpa using hread.symm.trans heq
    rw [show offset + 2 + inner.length + 1 = offset + inner.length + 3 by omega]

/-- Reading a tag that is not closed. -/
theorem readPieces_unterminated {cs : List Char} (offset : Nat)
    (h : ¬ ∃ inner rest, IsEnclosed inner ∧ cs = inner ++ '>' :: rest) :
    readPieces offset ('#' :: '<' :: cs) = .error (.unterminated, offset) := by
  rw [readPieces]
  split
  · rfl
  · next heq => exact absurd (exists_enclosed_of_readFields heq) h

/-- Reading a plain character. -/
theorem readPieces_plain {c : Char} {cs : List Char} (offset : Nat) (hcomment : ¬ ['/', '/'] <+: c :: cs)
    (htag : ¬ ['#', '<'] <+: c :: cs) :
    readPieces offset (c :: cs) = (do
      let pieces ← readPieces (offset + 1) cs
      return .plain c :: pieces) := by
  rw [readPieces.eq_def]
  split
  · next h => cases h
  · next h => exact absurd (h ▸ ⟨_, rfl⟩) hcomment
  · next h => exact absurd (h ▸ ⟨_, rfl⟩) htag
  · next h =>
    obtain ⟨rfl, rfl⟩ := List.cons.inj h
    rfl

theorem readPieces_of_isEnd {cs : List Char} (offset : Nat) (h : IsEnd cs) :
    readPieces offset cs = .ok [] := by
  rcases h with rfl | ⟨cs, rfl⟩
  · rw [readPieces]
  · exact readPieces.eq_2 _ _

/-- A source all of whose tags mean something is read as its pieces. -/
theorem readPieces_of_renders {cs rest : List Char} {ss : List Segment} (hreads : Reads cs ss rest)
    (hend : IsEnd rest) :
    ∀ {offset : Nat} {ps : List Piece}, Renders offset ss ps → readPieces offset cs = .ok ps := by
  induction hreads with
  | stop cs =>
    rintro offset _ ⟨⟩
    exact readPieces_of_isEnd offset hend
  | plain hcomment htag _ ih =>
    rintro offset _ (_ | h)
    rw [readPieces_plain offset hcomment htag, ih hend h]
    rfl
  | tag henclosed _ ih =>
    rintro offset _ (_ | _ | ⟨hmeans, h⟩)
    obtain ⟨fields, last, hsplit, hread⟩ := readPieces_tag offset _ henclosed
    rw [hread, readTag_of_means hsplit hmeans, ih hend h]
    rfl

/-- The first bad tag of a source behind segments that mean something decides. -/
theorem readPieces_of_offends {cs bad : List Char} {ss : List Segment} {e : TagError} {n : Nat}
    (hreads : Reads cs ss ('#' :: '<' :: bad)) :
    ∀ {offset : Nat} {ps : List Piece}, Renders offset ss ps →
      Offends bad (offset + (ss.flatMap Segment.chars).length) e n →
      readPieces offset cs = .error (e, n) := by
  generalize hrest : '#' :: '<' :: bad = rest at hreads
  induction hreads with
  | stop cs =>
    rintro offset _ ⟨⟩ hoffends
    subst hrest
    change Offends bad offset e n at hoffends
    cases hoffends with
    | unterminated h => exact readPieces_unterminated _ h
    | faulty henclosed hcs h =>
      obtain ⟨fields, last, hsplit, hread⟩ := readPieces_tag offset _ henclosed
      rw [hcs, hread, readTag_of_faulty hsplit h]
      rfl
  | plain hcomment htag _ ih =>
    rintro offset _ (_ | h) hoffends
    rw [Segment.length_chars_plain, ← Nat.add_assoc] at hoffends
    rw [readPieces_plain offset hcomment htag, ih hrest h hoffends]
    rfl
  | tag henclosed _ ih =>
    rintro offset _ (_ | _ | ⟨hmeans, h⟩) hoffends
    obtain ⟨fields, last, hsplit, hread⟩ := readPieces_tag offset _ henclosed
    rw [Segment.length_chars_tag, ← Nat.add_assoc, ← Nat.add_assoc] at hoffends
    rw [hread, readTag_of_means hsplit hmeans, ih hrest h hoffends]
    rfl

/-- A source is read to its end, or up to its first bad tag. -/
def IsReadable (offset : Nat) (cs : List Char) : Prop :=
  (∃ ss rest ps, Reads cs ss rest ∧ IsEnd rest ∧ Renders offset ss ps) ∨
    ∃ ss bad ps e n, Reads cs ss ('#' :: '<' :: bad) ∧ Renders offset ss ps ∧
      Offends bad (offset + (ss.flatMap Segment.chars).length) e n

theorem IsReadable.plain {offset : Nat} {c : Char} {cs : List Char} (h : IsReadable (offset + 1) cs)
    (hcomment : ¬ ['/', '/'] <+: c :: cs) (htag : ¬ ['#', '<'] <+: c :: cs) :
    IsReadable offset (c :: cs) := by
  rcases h with ⟨ss, rest, ps, hreads, hend, h⟩ | ⟨ss, bad, ps, e, n, hreads, h, hoffends⟩
  · exact .inl ⟨_, _, _, .plain hcomment htag hreads, hend, .plain h⟩
  · refine .inr ⟨_, bad, _, e, n, .plain hcomment htag hreads, .plain h, ?_⟩
    rwa [Segment.length_chars_plain, ← Nat.add_assoc]

theorem IsReadable.tag {offset : Nat} {inner cs : List Char} {t : CoefficientTag}
    (h : IsReadable (offset + inner.length + 3) cs) (henclosed : IsEnclosed inner)
    (hmeans : Means inner offset t) : IsReadable offset ('#' :: '<' :: (inner ++ '>' :: cs)) := by
  rcases h with ⟨ss, rest, ps, hreads, hend, h⟩ | ⟨ss, bad, ps, e, n, hreads, h, hoffends⟩
  · exact .inl ⟨_, _, _, .tag henclosed hreads, hend, .tag hmeans h⟩
  · refine .inr ⟨_, bad, _, e, n, .tag henclosed hreads, .tag hmeans h, ?_⟩
    rwa [Segment.length_chars_tag, ← Nat.add_assoc, ← Nat.add_assoc]

theorem IsReadable.offends {offset n : Nat} {bad : List Char} {e : TagError} (h : Offends bad offset e n) :
    IsReadable offset ('#' :: '<' :: bad) :=
  .inr ⟨[], bad, [], e, n, .stop _, .nil _, h⟩

theorem isReadable (offset : Nat) (cs : List Char) : IsReadable offset cs := by
  induction hlength : cs.length using Nat.strongRecOn generalizing offset cs with | ind k ih
  by_cases hend : IsEnd cs
  · exact .inl ⟨[], cs, [], .stop cs, hend, .nil _⟩
  obtain ⟨hne, hcomment⟩ := not_or.mp hend
  obtain ⟨c, cs, rfl⟩ := List.exists_cons_of_ne_nil hne
  by_cases htag : ['#', '<'] <+: c :: cs
  · obtain ⟨bad, hbad⟩ := htag
    rw [← hbad] at hlength ⊢
    by_cases hclosed : ∃ inner rest, IsEnclosed inner ∧ bad = inner ++ '>' :: rest
    · obtain ⟨inner, rest, henclosed, rfl⟩ := hclosed
      obtain ⟨fields, last, hsplit⟩ := exists_split 5 inner
      rcases means_or_faulty offset hsplit with ⟨t, hmeans⟩ | ⟨e, n, hfaulty⟩
      · have hshorter : rest.length < k := by
          simp only [List.length_append, List.length_cons] at hlength
          omega
        exact (ih _ hshorter _ rest rfl).tag henclosed hmeans
      · exact .offends (.faulty henclosed rfl hfaulty)
    · exact .offends (.unterminated hclosed)
  · exact (ih _ (hlength ▸ Nat.lt_succ_self _) (offset + 1) cs rfl).plain hcomment htag

/-! ## Locations -/

/-- A location told by what stands in front of it: the lines above, each with its newline, and the
beginning of its own line. -/
def Text.Location.PointsAt (text : List Char) (offset : Nat) (l : Text.Location) : Prop :=
  ∃ above line behind, text = above ++ line ++ behind ∧ (above ++ line).length = offset ∧
    (above = [] ∨ ['\n'] <:+ above) ∧ '\n' ∉ line ∧
    l.line = some ((above.count '\n' : Int) + 1) ∧ l.column = some ((line.length : Int) + 1)

/-- Every offset of a text has the location that points at it. -/
theorem Text.Location.ofOffset_pointsAt (text : String) {n : Nat} (h : n ≤ text.toList.length) :
    PointsAt text.toList n (ofOffset text n) := by
  have hposition : (min (max (n : Int) 0) text.toList.length).toNat = n := by omega
  let isOther : Char → Bool := (· != '\n')
  let before := text.toList.take n
  let above := (before.reverse.dropWhile isOther).reverse
  let line := (before.reverse.takeWhile isOther).reverse
  have hbefore : above ++ line = before := by
    rw [← List.reverse_append, List.takeWhile_append_dropWhile, List.reverse_reverse]
  have hline : '\n' ∉ line := fun hm =>
    absurd (List.all_eq_true.mp List.all_takeWhile _ (List.mem_reverse.mp hm)) (by decide)
  have hcount : before.count '\n' = above.count '\n' := by
    rw [← hbefore, List.count_append, List.count_eq_zero.mpr hline, Nat.add_zero]
  refine ⟨above, line, text.toList.drop n, ?_, ?_, ?_, hline, ?_, ?_⟩
  · rw [hbefore, List.take_append_drop]
  · rw [hbefore, List.length_take, Nat.min_eq_left h]
  · have hhead := List.head?_dropWhile_not isOther before.reverse
    cases hdrop : before.reverse.dropWhile isOther with
    | nil => exact .inl (congrArg List.reverse hdrop)
    | cons c cs =>
      rw [hdrop] at hhead
      obtain rfl : c = '\n' := by simpa [isOther] using hhead
      refine .inr ⟨cs.reverse, ?_⟩
      rw [← List.reverse_cons, ← hdrop]
  · rw [← hcount]
    simp only [ofOffset, hposition, before]
  · simp only [ofOffset, hposition, upToNewline, line, isOther, before]

/-! ## The main theorem -/

/-- What has been read stands in front of what follows. -/
theorem Reads.eq_append {cs rest : List Char} {ss : List Segment} (h : Reads cs ss rest) :
    cs = ss.flatMap Segment.chars ++ rest := by
  induction h with
  | stop => rfl
  | plain _ _ _ ih => simp [Segment.chars, ← ih]
  | tag _ _ ih => simp [Segment.chars, ← ih]

/-- What is wrong with a tag is found in the tag. -/
theorem Offends.le_length {cs : List Char} {offset n : Nat} {e : TagError} (h : Offends cs offset e n) :
    n ≤ offset + 2 + cs.length := by
  cases h with
  | unterminated => omega
  | faulty henclosed hcs h =>
    cases h with
    | fewColons => omega
    | @field id f last fine after label e hsplit =>
      have hjoined := congrArg List.length hsplit.joined
      rw [← List.cons_append, List.flatMap_append, List.append_assoc, List.length_append] at hjoined
      rw [hcs, List.length_append]
      omega

/-- **A source is read exactly as its grammar says.** It is read if all its tags are closed and mean
something; its body has the plain characters, and in the place of each tag its call. Otherwise the
error is that of the first bad tag, and its location points at that tag or at its bad field. -/
theorem parseEquation_correct (code : String) :
    (∀ p, parseEquation code = .ok p ↔ ∃ ss rest ps, Reads code.toList ss rest ∧ IsEnd rest ∧
      Renders 0 ss ps ∧
      p = { body := String.ofList (ps.flatMap Piece.chars), tags := ps.filterMap Piece.tag? }) ∧
    ∀ e n, parseEquation code = .error (e, n) ↔ ∃ ss bad ps,
      Reads code.toList ss ('#' :: '<' :: bad) ∧ Renders 0 ss ps ∧
      Offends bad (ss.flatMap Segment.chars).length e n ∧
      Text.Location.PointsAt code.toList n (Text.Location.ofOffset code n) := by
  have hok : ∀ {ss rest ps}, Reads code.toList ss rest → IsEnd rest → Renders 0 ss ps →
      parseEquation code = .ok { body := String.ofList (ps.flatMap Piece.chars)
                                 tags := ps.filterMap Piece.tag? } := by
    intro ss rest ps hreads hend h
    rw [parseEquation, readPieces_of_renders hreads hend h]
    rfl
  have herror : ∀ {ss bad ps e n}, Reads code.toList ss ('#' :: '<' :: bad) → Renders 0 ss ps →
      Offends bad (ss.flatMap Segment.chars).length e n → parseEquation code = .error (e, n) := by
    intro ss bad ps e n hreads h hoffends
    rw [parseEquation, readPieces_of_offends hreads h (by rwa [Nat.zero_add])]
    rfl
  refine ⟨fun p => ⟨fun h => ?_, ?_⟩, fun e n => ⟨fun h => ?_, ?_⟩⟩
  · rcases isReadable 0 code.toList with
      ⟨ss, rest, ps, hreads, hend, hr⟩ | ⟨ss, bad, ps, e, n, hreads, hr, ho⟩
    · exact ⟨ss, rest, ps, hreads, hend, hr, Except.ok.inj (h.symm.trans (hok hreads hend hr))⟩
    · rw [Nat.zero_add] at ho
      exact nomatch h.symm.trans (herror hreads hr ho)
  · rintro ⟨ss, rest, ps, hreads, hend, hr, rfl⟩
    exact hok hreads hend hr
  · rcases isReadable 0 code.toList with
      ⟨ss, rest, ps, hreads, hend, hr⟩ | ⟨ss, bad, ps, e', n', hreads, hr, ho⟩
    · exact nomatch h.symm.trans (hok hreads hend hr)
    · rw [Nat.zero_add] at ho
      cases h.symm.trans (herror hreads hr ho)
      have hle : n ≤ code.toList.length := by
        refine Nat.le_trans ho.le_length ?_
        rw [hreads.eq_append, List.length_append]
        simp only [List.length_cons]
        omega
      exact ⟨ss, bad, ps, hreads, hr, ho, Text.Location.ofOffset_pointsAt code hle⟩
  · rintro ⟨ss, bad, ps, hreads, hr, ho, -⟩
    exact herror hreads hr ho

end TensorEquations
