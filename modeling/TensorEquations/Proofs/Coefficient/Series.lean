import TensorEquations.Proofs.Coefficient.Unknown
import TensorEquations.Proofs.Expression.Tokenization
import TensorEquations.Proofs.Tensor.Lookup

/-!
# Labels and symbols in series

Labels are letters with the number of a round behind them, and symbols are a name with a multi-index behind it. Both
stay apart however many there are, although the digits of neighbouring numbers stand close together.

* `lexeme_seriesLabel` — a label is a name of the language.
* `seriesLabel_injective`, `nodup_labelSeries`, `labelSeries_mono` — labels are pairwise different, and fewer of them
  are the beginning of more.
* `Tensor.componentName_injective`, `Tensor.component_general` — the component of a general tensor at a multi-index is
  a symbol of its own.
* `series_distinct` — **generated labels and symbols never repeat.**
-/

namespace TensorEquations

/-! ## Names -/

/-- A text that begins as a name does and goes on so is one. -/
theorem Lexeme.of_name {text : String} {c : Char} {cs : List Char} (h : text.toList = c :: cs)
    (hfirst : isNameFirst c) (hlater : ∀ d ∈ cs, isNameLater d) : Lexeme text.toList (.name text) := by
  have hname := Lexeme.name hfirst hlater
  rwa [← h, String.ofList_toList] at hname

theorem isNameLater_of_isNameSafe {c : Char} (h : isNameSafe c) : isNameLater c := by
  rw [isNameLater, ← isNameSafe, h, Bool.true_or]

/-- The digits of a number may stand in a name. -/
theorem isNameSafe_numeral {n : Nat} : ∀ c ∈ (toString n).toList, isNameSafe c := by
  rw [Nat.toString_eq_repr, Nat.repr_eq_ofList_toDigits, String.toList_ofList]
  intro c hc
  have hdigit := Nat.isDigit_of_mem_toDigits (by decide) (by decide) hc
  rw [isNameSafe, Char.isAlphanum, hdigit, Bool.or_true, Bool.true_or]

/-! ## The series of labels -/

theorem toList_seriesLabel (k : Nat) : (seriesLabel k).toList =
    labelLetters.getD (k % 26) 'a' :: (if k / 26 = 0 then "" else toString (k / 26)).toList := by
  rw [seriesLabel, String.toList_append, String.toList_singleton]
  rfl

theorem lexeme_seriesLabel (k : Nat) : Lexeme (seriesLabel k).toList (.name (seriesLabel k)) := by
  have hletters : ∀ n < 26, isNameFirst (labelLetters.getD n 'a') := by decide
  refine .of_name (toList_seriesLabel k) (hletters _ (Nat.mod_lt k (by decide))) ?_
  split
  · exact nofun
  · exact fun c hc => isNameLater_of_isNameSafe (isNameSafe_numeral c hc)

/-- Later rounds of the letters have other numbers, the first one none. -/
theorem seriesLabel_injective : Function.Injective seriesLabel := by
  intro j k h
  have hchars := congrArg String.toList h
  rw [toList_seriesLabel, toList_seriesLabel] at hchars
  obtain ⟨hletter, hround⟩ := List.cons.inj hchars
  have hletters : ∀ m < 26, ∀ n < 26,
      labelLetters.getD m 'a' = labelLetters.getD n 'a' → m = n := by decide
  have hplace : j % 26 = k % 26 :=
    hletters _ (Nat.mod_lt j (by decide)) _ (Nat.mod_lt k (by decide)) hletter
  have hnumber : j / 26 = k / 26 := by
    have hempty : ∀ n : Nat, "" ≠ toString n := fun n hn => Nat.repr_ne_empty hn.symm
    have htext := String.toList_inj.mp hround
    split at htext <;> split at htext
    · omega
    · exact absurd htext (hempty _)
    · exact absurd htext.symm (hempty _)
    · exact Nat.repr_injective htext
  omega

/-- **The labels of a coefficient are pairwise different.** -/
theorem nodup_labelSeries (count : Nat) : (labelSeries count).Nodup :=
  List.nodup_range.map seriesLabel_injective

theorem length_labelSeries (count : Nat) : (labelSeries count).length = count := by
  rw [labelSeries, List.length_map, List.length_range]

/-- Fewer labels are the beginning of more of them. -/
theorem labelSeries_mono {fewer count : Nat} (h : fewer ≤ count) : labelSeries fewer <+: labelSeries count := by
  obtain ⟨more, rfl⟩ := Nat.exists_eq_add_of_le h
  rw [labelSeries, labelSeries, List.range_add, List.map_append]
  exact List.prefix_append _ _

theorem lexeme_labelSeries (count : Nat) : ∀ l ∈ labelSeries count, Lexeme l.toList (.name l) := by
  rw [labelSeries, List.forall_mem_map]
  exact fun n _ => lexeme_seriesLabel n

theorem CoefficientKey.lexeme_label (k : CoefficientKey) : ∀ l ∈ k.labels, Lexeme l.toList (.name l) :=
  lexeme_labelSeries _

/-! ## The symbols of a general tensor -/

namespace Tensor

variable {labels : List String} {dimension : Int} {name : String} {t : Tensor}

/-- **The underscores keep the numbers of a multi-index apart.** -/
theorem componentName_injective (name : String) : Function.Injective (componentName name) := by
  intro I J h
  have hparts := congrArg parts h
  rw [CoefficientKey.parts_componentName, CoefficientKey.parts_componentName, List.append_cancel_left_eq] at hparts
  have hnumbers := List.map_injective_iff.mpr numeral_injective hparts
  exact List.map_injective_iff.mpr (fun _ _ => Int.ofNat.inj) hnumbers

theorem component_general (h : general labels dimension name = .ok t) {index : List Nat} (hindex : index ∈ t.indices) :
    t.component index = .symbol (componentName name index) := by
  obtain ⟨nodup, -, rfl⟩ := build_eq_ok_iff.mp h
  exact component_ofFunction nodup _ hindex

theorem exists_general_iff : (∃ t, general labels dimension name = .ok t) ↔
    labels.Nodup ∧ (labels ≠ [] → 0 ≤ dimension) := by
  constructor
  · rintro ⟨t, h⟩
    obtain ⟨nodup, hdimension, -⟩ := build_eq_ok_iff.mp h
    exact ⟨nodup, hdimension⟩
  · rintro ⟨nodup, hdimension⟩
    exact ⟨_, build_eq_ok_iff.mpr ⟨nodup, hdimension, rfl⟩⟩

end Tensor

open Tensor (general componentName)

/-- **Generated labels and symbols never repeat.** A series has as many labels as asked for; they are pairwise
different, a shorter series is its beginning, and each label by itself is one name of the language. A general tensor
exists exactly if its labels are pairwise different and the range of its axes, if it has any, is not negative. It has a
component at every multi-index of its rank in that range; each is a symbol, and no two of them are the same. -/
theorem series_distinct :
    (∀ count, (labelSeries count).length = count ∧ (labelSeries count).Nodup ∧
      (∀ fewer ≤ count, labelSeries fewer <+: labelSeries count) ∧
      ∀ label ∈ labelSeries count, scan label = ⟨[⟨.name label, ⟨1, 1⟩⟩], none⟩) ∧
    ∀ labels dimension name,
      ((∃ t, general labels dimension name = .ok t) ↔ labels.Nodup ∧ (labels ≠ [] → 0 ≤ dimension)) ∧
      ∀ t, general labels dimension name = .ok t →
        t.labels = labels ∧
        (∀ I, I ∈ t.indices ↔ I.length = labels.length ∧ ∀ i ∈ I, (i : Int) < dimension) ∧
        (∀ I ∈ t.indices, t.component I = .symbol (componentName name I)) ∧
        ∀ I ∈ t.indices, ∀ J ∈ t.indices, I ≠ J → t.component I ≠ t.component J := by
  refine ⟨fun count => ⟨length_labelSeries count, nodup_labelSeries count, fun _ => labelSeries_mono,
    fun label hlabel => ?_⟩, fun labels dimension name => ⟨Tensor.exists_general_iff, fun t h => ?_⟩⟩
  · exact (lexeme_labelSeries count label hlabel).scan_eq
  · refine ⟨Tensor.general_labels h, fun I => Tensor.mem_indices_build h, fun I => Tensor.component_general h,
      fun I hI J hJ hne hsame => ?_⟩
    rw [Tensor.component_general h hI, Tensor.component_general h hJ] at hsame
    exact hne (Tensor.componentName_injective name (Scalar.symbol_injective hsame))

/-- Labels of the second round, and multi-indices with the same digits one after the other. -/
theorem series_distinct_twelve :
    labelSeries 2 <+: labelSeries 28 ∧ scan "b1" = ⟨[⟨.name "b1", ⟨1, 1⟩⟩], none⟩ ∧
    ∃ t, general ["i", "j"] 12 "A_1" = .ok t ∧ t.component [1, 11] = .symbol "A_1_1_11" ∧
      t.component [11, 1] = .symbol "A_1_11_1" ∧ t.component [1, 11] ≠ t.component [11, 1] := by
  obtain ⟨-, -, hmono, hscan⟩ := series_distinct.1 28
  obtain ⟨hexists, htensor⟩ := series_distinct.2 ["i", "j"] 12 "A_1"
  obtain ⟨t, ht⟩ := hexists.mpr ⟨by decide, by decide⟩
  obtain ⟨-, hindices, hcomponent, hdistinct⟩ := htensor t ht
  have hI : [1, 11] ∈ t.indices := (hindices _).mpr (by decide)
  have hJ : [11, 1] ∈ t.indices := (hindices _).mpr (by decide)
  exact ⟨hmono 2 (by decide), hscan "b1" (by decide +kernel), t, ht, (hcomponent _ hI).trans (by decide +kernel),
    (hcomponent _ hJ).trans (by decide +kernel), hdistinct _ hI _ hJ (by decide)⟩

end TensorEquations
