import TensorEquations.Proofs.Coefficient.Identity
import TensorEquations.Proofs.Equation.Call
import TensorEquations.Proofs.Equation.Source
import TensorEquations.Proofs.Scalar.Formula.Argument
import TensorEquations.Proofs.Tensor.Comparison

/-!
# The two spellings of a tag

The blocks of a coefficient may be written in either order, each with its labels.

* `tagText` — a tag as text.
* `means_tagInner`, `parseEquation_tagText` — the key and the call of such a tag.
* `CoefficientKey.evaluate_labelled` — the call gives the components of the coefficient the labels of the tag, in
  order.
* `exchanged_tags_agree` — **both spellings mean one coefficient, and they are equal by label where the components
  are exchange symmetric; for blocks of one shape exactly there.**
* `exchanged_tags_differ` — the two spellings of a general matrix.
-/

namespace TensorEquations

/-! ## Tags as text -/

/-- A tag as text. -/
def tagText (id : String) (l ld r rd : Nat) (labels : List String) : String :=
  "#<" ++ ":".intercalate [id, toString l, toString ld, toString r, toString rd, labelSet labels] ++ ">"

/-- Text that may stand for the coefficient in a tag. -/
def IsTagId (id : String) : Prop := ':' ∉ id.toList ∧ IsEnclosed id.toList

/-- The text between the ends of a tag. -/
def tagInner (id : String) (l ld r rd : Nat) (labels : List String) : List Char :=
  id.toList ++ ':' :: (Nat.toDigits 10 l ++ ':' :: (Nat.toDigits 10 ld ++ ':' :: (Nat.toDigits 10 r ++
    ':' :: (Nat.toDigits 10 rd ++ ':' :: (labelSet labels).toList))))

theorem toList_tagText (id : String) (l ld r rd : Nat) (labels : List String) :
    (tagText id l ld r rd labels).toList = '#' :: '<' :: (tagInner id l ld r rd labels ++ ['>']) := by
  have hopen : "#<".toList = ['#', '<'] := by decide
  have hcolon : ":".toList = [':'] := by decide
  have hclose : ">".toList = ['>'] := by decide
  rw [tagText, String.toList_append, String.toList_append, hopen, hclose, String.toList_intercalate, hcolon]
  simp only [List.map_cons, List.map_nil, List.intercalate_cons_cons, List.intercalate_singleton,
    Formula.toList_toString_nat, tagInner, List.append_assoc, List.cons_append, List.nil_append]

/-- A character that is neither a slash nor the closing mark keeps two enclosed texts apart. -/
theorem IsEnclosed.append_cons {c : Char} (hslash : c ≠ '/') (hclose : c ≠ '>') {cs rest : List Char}
    (h : IsEnclosed cs) (hrest : IsEnclosed rest) : IsEnclosed (cs ++ c :: rest) := by
  refine ⟨?_, IsUncommented.append_cons hslash hrest.2 h.2⟩
  simp [h.1, hrest.1, Ne.symm hclose]

theorem IsEnclosed.of_not_mem {cs : List Char} (hclose : '>' ∉ cs) (hslash : '/' ∉ cs) : IsEnclosed cs :=
  ⟨hclose, IsUncommented.of_not_mem hslash⟩

theorem isEnclosed_toDigits (n : Nat) : IsEnclosed (Nat.toDigits 10 n) :=
  .of_not_mem (Formula.not_mem_toDigits (by decide) n) (Formula.not_mem_toDigits (by decide) n)

theorem trimChars_toDigits (n : Nat) : Text.trimChars (Nat.toDigits 10 n) = Nat.toDigits 10 n :=
  Formula.trimChars_eq (fun _ hc => Formula.isBlank_of_mem_toDigits (List.mem_of_mem_head? hc))
    fun _ hc => Formula.isBlank_of_mem_toDigits (List.mem_of_getLast? hc)

/-- A number as it is written is a numeral of its value. -/
theorem isNumeral_toDigits (n : Nat) : IsNumeral (Nat.toDigits 10 n) ∧ fieldSize (Nat.toDigits 10 n) = n := by
  obtain ⟨c, cs, hdigits, -⟩ := Formula.exists_toDigits_eq n
  rw [IsNumeral, fieldSize, trimChars_toDigits]
  refine ⟨⟨by simp [hdigits], fun c => Formula.isDigit_of_mem_toDigits⟩, ?_⟩
  rw [Text.digitsValue_eq fun c => Formula.isDigit_of_mem_toDigits, Nat.ofDigitChars_ten_toDigits]

/-- A size that may be read. -/
def IsShortSize (n : Nat) : Prop := (Nat.toDigits 10 n).length ≤ Text.digitLimit

instance (n : Nat) : Decidable (IsShortSize n) := inferInstanceAs (Decidable (_ ≤ _))

section Tags

variable {id : String} {l ld r rd : Nat} {labels : List String}

theorem isEnclosed_tagInner (hid : IsTagId id) (hlabels : ∀ x ∈ labels, Lexeme x.toList (.name x)) :
    IsEnclosed (tagInner id l ld r rd labels) := by
  have hset : IsEnclosed (labelSet labels).toList :=
    .of_not_mem (not_mem_labelSet (by decide) fun x hx => (hlabels x hx).not_mem (by decide) (by decide))
      (not_mem_labelSet (by decide) fun x hx => (hlabels x hx).not_mem (by decide) (by decide))
  have hcolon {cs rest : List Char} (h : IsEnclosed cs) (hrest : IsEnclosed rest) : IsEnclosed (cs ++ ':' :: rest) :=
    .append_cons (by decide) (by decide) h hrest
  exact hcolon hid.2 (hcolon (isEnclosed_toDigits l) (hcolon (isEnclosed_toDigits ld)
    (hcolon (isEnclosed_toDigits r) (hcolon (isEnclosed_toDigits rd) hset))))

/-- The tag that the text means. -/
theorem means_tagInner (hid : IsTagId id) (hsizes : ∀ n ∈ [l, ld, r, rd], IsShortSize n) (offset : Nat) :
    Means (tagInner id l ld r rd labels) offset
      { key := Mention.key ⟨⟨l, ld, r, rd⟩, Text.trimBlank id⟩, indices := labelSet labels, offset := offset } := by
  have hcolon := Formula.not_mem_toDigits (c := ':') (by decide)
  have hnumeral : ∀ n ∈ [l, ld, r, rd], IsNumeral (Nat.toDigits 10 n) ∧ IsShort (Nat.toDigits 10 n) := by
    intro n hn
    rw [IsShort, trimChars_toDigits]
    exact ⟨(isNumeral_toDigits n).1, hsizes n hn⟩
  refine ⟨_, _, _, _, _, (labelSet labels).toList, .cons hid.1 (.cons (hcolon l) (.cons (hcolon ld)
    (.cons (hcolon r) (.cons (hcolon rd) (.nil nofun))))), ?_, ?_⟩
  · simpa using hnumeral
  · simp only [(isNumeral_toDigits _).2, String.ofList_toList]
    rfl

/-- **A tag alone** is read as its call. -/
theorem parseEquation_tagText (hid : IsTagId id) (hsizes : ∀ n ∈ [l, ld, r, rd], IsShortSize n)
    (hlabels : ∀ x ∈ labels, Lexeme x.toList (.name x)) :
    parseEquation (tagText id l ld r rd labels) =
      .ok { body := renameCall (Mention.key ⟨⟨l, ld, r, rd⟩, Text.trimBlank id⟩) (labelSet labels)
            tags := [{ key := Mention.key ⟨⟨l, ld, r, rd⟩, Text.trimBlank id⟩
                       indices := labelSet labels
                       offset := 0 }] } := by
  have hreads : Reads (tagText id l ld r rd labels).toList [.tag (tagInner id l ld r rd labels)] [] := by
    rw [toList_tagText]
    exact .tag (isEnclosed_tagInner hid hlabels) (.stop [])
  have hmeans : Means (tagInner id l ld r rd labels) 0 _ := means_tagInner hid hsizes 0
  generalize Mention.key ⟨⟨l, ld, r, rd⟩, Text.trimBlank id⟩ = k at hmeans ⊢
  have hpieces := readPieces_of_renders hreads (.inl rfl) (.tag hmeans (.nil _))
  have hbody : String.ofList ((renameCall k (labelSet labels)).toList ++ []) = renameCall k (labelSet labels) := by
    rw [List.append_nil, String.ofList_toList]
  rw [parseEquation, hpieces]
  exact congrArg (fun body => Except.ok (ParsedEquation.mk body _)) hbody

end Tags

/-! ## Their values -/

/-- Labels in braces are an index token. -/
theorem isIndexToken_labelSet {xs : List String} (h : ∀ x ∈ xs, Lexeme x.toList (.name x)) :
    IsIndexToken (labelSet xs) xs := by
  have hbracket : kindsIn ")".toList = some [.closeParen] := by decide
  rw [IsIndexToken, kinds_stripComments, String.toList_append, ← kindsIn, kindsIn_labelSet h, hbracket]
  rfl

/-- **The call of a tag gives the components of the coefficient the labels of the tag**, in order. -/
theorem CoefficientKey.evaluate_labelled {k : CoefficientKey} (hk : k.IsNatural) {xs : List String}
    (hlabels : ∀ x ∈ xs, Lexeme x.toList (.name x)) (hnodup : xs.Nodup) {t : Tensor} (ht : t.labels = k.labels)
    (hlength : xs.length = t.labels.length) {i : Interpreter} (hname : i.bindings.lookup k.name = some (.tensor t)) :
    ∃ v, (i.evaluate (renameCall k (labelSet xs))).1 = .ok (.tensor v) ∧ v.labels = xs ∧ v.SameComponents t := by
  obtain ⟨v, hv, hvlabels, hdimension, hcomponents⟩ := t.rename_labels_ok hlength hnodup
  rw [evaluate_call hk (isIndexToken_labelSet hlabels) hname, ← ht, hv]
  exact ⟨v, rfl, hvlabels, hdimension, hcomponents⟩

/-- The completed tensor of a coefficient has as many labels as its key says. -/
theorem Coefficient.complete_labels {c d : Coefficient} {u t : Tensor} (hcomplete : c.complete u = .ok d)
    (htensor : d.tensor = some t) : t.labels = c.key.labels ∧ (t.labels.length : Int) = c.key.rank := by
  obtain ⟨hrank, -, t', ht', rfl⟩ := complete_ok hcomplete
  obtain rfl := Option.some.inj htensor
  have hlabels : t'.labels = c.key.labels := Tensor.withLabels_labels ht'
  refine ⟨hlabels, ?_⟩
  rw [hlabels, CoefficientKey.labels, length_labelSeries, ← hrank, Int.toNat_natCast]

theorem IsName.lexeme {name : String} (h : IsName name) : Lexeme name.toList (.name name) := by
  obtain ⟨c, cs, htext, hfirst, hlater⟩ := h
  exact .of_name htext hfirst hlater

section Spellings

variable {id : String} {l ld r rd : Nat} {I J : List String} {c d : Coefficient} {u t : Tensor}

/-- Both spellings of a tag are read, and their calls have values that are equal by label exactly if the components
do not change when the first axes, as many as there are labels in the first block, come last. For blocks of different
sizes these axes are not all of one block, so this is no symmetry of the coefficient. -/
theorem exists_spelled (hid : IsTagId id) (hsizes : ∀ n ∈ [l, ld, r, rd], IsShortSize n) (hI : I.length = l + ld)
    (hJ : J.length = r + rd) (hnames : ∀ x ∈ I ++ J, IsName x) (hnodup : (I ++ J).Nodup)
    (hkey : c.key = Mention.key ⟨⟨l, ld, r, rd⟩, Text.trimBlank id⟩) (hcomplete : c.complete u = .ok d)
    (htensor : d.tensor = some t) :
    ∃ p p' : ParsedEquation, parseEquation (tagText id l ld r rd (I ++ J)) = .ok p ∧
      parseEquation (tagText id r rd l ld (J ++ I)) = .ok p' ∧
      p.tags.map CoefficientTag.key = [c.key] ∧ p'.tags.map CoefficientTag.key = [c.key] ∧
      ∀ i : Interpreter, i.bindings.lookup c.key.name = some (.tensor t) → ∃ v v',
        (i.evaluate p.body).1 = .ok (.tensor v) ∧ (i.evaluate p'.body).1 = .ok (.tensor v') ∧
        v.labels = I ++ J ∧ v'.labels = J ++ I ∧ v.toList = t.toList ∧ v'.toList = t.toList ∧
        (v.equals v' = true ↔ t.IsExchangeSymmetric (l + ld) (r + rd)) := by
  have hexchanged : ∀ {P : String → Prop}, (∀ x ∈ I ++ J, P x) → ∀ x ∈ J ++ I, P x := fun h x hx =>
    h x (List.perm_append_comm.mem_iff.mp hx)
  have hlexemes : ∀ x ∈ I ++ J, Lexeme x.toList (.name x) := fun x hx => (hnames x hx).lexeme
  have hkey' : c.key = Mention.key ⟨⟨r, rd, l, ld⟩, Text.trimBlank id⟩ :=
    hkey.trans (Mention.key_eq_iff.mpr ⟨rfl, .inr rfl⟩)
  have hperm : ([r, rd] ++ [l, ld]).Perm ([l, ld] ++ [r, rd]) := List.perm_append_comm
  have hsizes' : ∀ n ∈ [r, rd, l, ld], IsShortSize n := fun n hn => hsizes n (hperm.mem_iff.mp hn)
  have hnatural : c.key.IsNatural := by
    rw [hkey]
    exact CoefficientKey.isNatural_canonical (by simp [BlockShape.toList])
  obtain ⟨ht, hrank⟩ := Coefficient.complete_labels hcomplete htensor
  have hlength : (I ++ J).length = t.labels.length := by
    have hsum : c.key.rank = l + ld + r + rd := by
      rw [hkey]
      exact BlockShape.rank_canonical _
    rw [List.length_append]
    omega
  refine ⟨_, _, parseEquation_tagText hid hsizes hlexemes, parseEquation_tagText hid hsizes' (hexchanged hlexemes),
    by rw [hkey]; rfl, by rw [hkey']; rfl, fun i hname => ?_⟩
  rw [← hkey, ← hkey']
  obtain ⟨v, hv, hvlabels, hvt⟩ := CoefficientKey.evaluate_labelled hnatural hlexemes hnodup ht hlength hname
  obtain ⟨v', hv', hvlabels', hvt'⟩ := CoefficientKey.evaluate_labelled hnatural (hexchanged hlexemes)
    (List.perm_append_comm.nodup_iff.mp hnodup) ht (List.perm_append_comm.length_eq.trans hlength) hname
  have hequals := Tensor.equals_exchanged_iff hvlabels hvlabels' hvt hvt'
  rw [hI, hJ] at hequals
  exact ⟨v, v', hv, hv', hvlabels, hvlabels', congrArg Array.toList hvt.components,
    congrArg Array.toList hvt'.components, hequals⟩

/-- **The two spellings of a tag.** They mean one coefficient. In the place of its name both calls have a value, a
tensor under the labels as they are spelled, and the spelling with the larger block in front has the components of
the coefficient. The two values are equal by label if the components are exchange symmetric, and for two blocks of
one shape exactly then. -/
theorem exchanged_tags_agree (hid : IsTagId id) (hsizes : ∀ n ∈ [l, ld, r, rd], IsShortSize n)
    (hI : I.length = l + ld) (hJ : J.length = r + rd) (hnames : ∀ x ∈ I ++ J, IsName x) (hnodup : (I ++ J).Nodup)
    (hkey : c.key = Mention.key ⟨⟨l, ld, r, rd⟩, Text.trimBlank id⟩) (hcomplete : c.complete u = .ok d)
    (htensor : d.tensor = some t) :
    ∃ p p' : ParsedEquation, parseEquation (tagText id l ld r rd (I ++ J)) = .ok p ∧
      parseEquation (tagText id r rd l ld (J ++ I)) = .ok p' ∧
      p.tags.map CoefficientTag.key = [c.key] ∧ p'.tags.map CoefficientTag.key = [c.key] ∧
      ∀ i : Interpreter, i.bindings.lookup c.key.name = some (.tensor t) → ∃ v v',
        (i.evaluate p.body).1 = .ok (.tensor v) ∧ (i.evaluate p'.body).1 = .ok (.tensor v') ∧
        v.labels = I ++ J ∧ v'.labels = J ++ I ∧
        (c.key.shape = ⟨l, ld, r, rd⟩ → v.toList = t.toList) ∧
        (c.key.shape = ⟨r, rd, l, ld⟩ → v'.toList = t.toList) ∧
        (t.IsExchangeSymmetric (l + ld) (r + rd) → v.equals v' = true) ∧
        (l = r → ld = rd → v.equals v' = true → t.IsExchangeSymmetric (l + ld) (r + rd)) := by
  obtain ⟨p, p', hp, hp', hkeys, hkeys', hvalues⟩ :=
    exists_spelled hid hsizes hI hJ hnames hnodup hkey hcomplete htensor
  refine ⟨p, p', hp, hp', hkeys, hkeys', fun i hname => ?_⟩
  obtain ⟨v, v', hv, hv', hlabels, hlabels', hlist, hlist', hequals⟩ := hvalues i hname
  exact ⟨v, v', hv, hv', hlabels, hlabels', fun _ => hlist, fun _ => hlist', hequals.mpr, fun _ _ => hequals.mp⟩

end Spellings

/-! ## A matrix in both spellings -/

theorem isTagId_A : IsTagId "A" := ⟨by decide, .of_not_mem (by decide) (by decide)⟩

theorem isShortSize_A : ∀ n ∈ [1, 0, 1, 0], IsShortSize n := by decide

theorem name_A : CoefficientKey.name ⟨⟨1, 0, 1, 0⟩, "A"⟩ = "Coefficient_A_1_0_1_0" := by decide +kernel

theorem isName_ab : ∀ x ∈ ["a"] ++ ["b"], IsName x := by
  simp only [List.mem_append, List.mem_singleton]
  rintro x (rfl | rfl) <;> exact ⟨_, [], rfl, by decide, fun _ hd => absurd hd List.not_mem_nil⟩

/-- A matrix as the tensor of a coefficient with two blocks of one index. -/
def matrix (p q r s : String) : Tensor :=
  ⟨["a", "b"], 2, #[.symbol p, .symbol q, .symbol r, .symbol s], by decide, rfl, nofun⟩

/-- The two spellings of a symmetric matrix. -/
theorem exchanged_tags_agree_symmetric : ∃ p p' v v',
    parseEquation (tagText "A" 1 0 1 0 ["a", "b"]) = .ok p ∧
      parseEquation (tagText "A" 1 0 1 0 ["b", "a"]) = .ok p' ∧
      ((Interpreter.start [("Coefficient_A_1_0_1_0", .tensor (matrix "x" "y" "y" "z"))]).evaluate p.body).1 =
        .ok (.tensor v) ∧
      ((Interpreter.start [("Coefficient_A_1_0_1_0", .tensor (matrix "x" "y" "y" "z"))]).evaluate p'.body).1 =
        .ok (.tensor v') ∧
      v.equals v' = true := by
  let c : Coefficient := { key := ⟨⟨1, 0, 1, 0⟩, "A"⟩ }
  let t := matrix "x" "y" "y" "z"
  have hcomplete : c.complete t = .ok { c with tensor := some t, isFinished := true } := rfl
  obtain ⟨p, p', hp, hp', -, -, hvalues⟩ :=
    exchanged_tags_agree isTagId_A isShortSize_A rfl rfl isName_ab (by decide) rfl hcomplete rfl
  obtain ⟨v, v', hv, hv', -, -, -, -, hsymmetric, -⟩ :=
    hvalues (.start [("Coefficient_A_1_0_1_0", .tensor t)]) (name_A ▸ List.lookup_cons_self)
  exact ⟨p, p', v, v', hp, hp', hv, hv', hsymmetric (by decide +kernel)⟩

/-- **The two spellings of a general matrix differ**, though they mean one coefficient. -/
theorem exchanged_tags_differ : ∃ p p' v v',
    parseEquation (tagText "A" 1 0 1 0 ["a", "b"]) = .ok p ∧
      parseEquation (tagText "A" 1 0 1 0 ["b", "a"]) = .ok p' ∧
      p.tags.map CoefficientTag.key = p'.tags.map CoefficientTag.key ∧
      ((Interpreter.start [("Coefficient_A_1_0_1_0", .tensor (matrix "w" "x" "y" "z"))]).evaluate p.body).1 =
        .ok (.tensor v) ∧
      ((Interpreter.start [("Coefficient_A_1_0_1_0", .tensor (matrix "w" "x" "y" "z"))]).evaluate p'.body).1 =
        .ok (.tensor v') ∧
      v.equals v' = false := by
  let c : Coefficient := { key := ⟨⟨1, 0, 1, 0⟩, "A"⟩ }
  let t := matrix "w" "x" "y" "z"
  have hcomplete : c.complete t = .ok { c with tensor := some t, isFinished := true } := rfl
  obtain ⟨p, p', hp, hp', hkeys, hkeys', hvalues⟩ :=
    exists_spelled isTagId_A isShortSize_A rfl rfl isName_ab (by decide) rfl hcomplete rfl
  obtain ⟨v, v', hv, hv', -, -, -, -, hequals⟩ :=
    hvalues (.start [("Coefficient_A_1_0_1_0", .tensor t)]) (name_A ▸ List.lookup_cons_self)
  have hdiffer : ¬ t.IsExchangeSymmetric 1 1 := by decide +kernel
  exact ⟨p, p', v, v', hp, hp', hkeys.trans hkeys'.symm, hv, hv', Bool.eq_false_iff.mpr (mt hequals.mp hdiffer)⟩

end TensorEquations
