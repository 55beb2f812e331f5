import Mathlib.Algebra.Field.Rat
import Mathlib.Algebra.Module.Pi
import Mathlib.LinearAlgebra.Span.Basic
import TensorEquations.LinearSystem.Reduction

/-!
# Correctness of row reduction

* `entriesAt`, `rowSpan` — a row as a function of the column, and the span of a list of rows.
* `PivotRow.IsPivot`, `PivotRow.IsReduced` — a row that begins with its pivot, and rows with ascending
  pivots each of which is the only nonzero entry of its column.
* `PivotRow.clearAll_spec`, `PivotRow.ofRow?_spec`, `PivotRow.insert_spec` — the steps.
* `PivotRow.reduce_spec` — **row reduction gives reduced rows with the same span.**
-/

namespace TensorEquations

/-- The entries of a row, with zeros behind its end. -/
def entriesAt (row : List ℚ) : ℕ → ℚ := fun j => row.getD j 0

/-- The span of a list of rows. -/
def rowSpan (rows : List (List ℚ)) : Submodule ℚ (ℕ → ℚ) :=
  Submodule.span ℚ {v | ∃ row ∈ rows, v = entriesAt row}

theorem mem_rowSpan {rows : List (List ℚ)} {row : List ℚ} (h : row ∈ rows) :
    entriesAt row ∈ rowSpan rows := Submodule.subset_span ⟨row, h, rfl⟩

theorem rowSpan_le {rows : List (List ℚ)} {S : Submodule ℚ (ℕ → ℚ)}
    (h : ∀ row ∈ rows, entriesAt row ∈ S) : rowSpan rows ≤ S := by
  refine Submodule.span_le.mpr ?_
  rintro v ⟨row, hrow, rfl⟩
  exact h row hrow

theorem rowSpan_mono {rows rows' : List (List ℚ)} (h : ∀ row ∈ rows, row ∈ rows') :
    rowSpan rows ≤ rowSpan rows' := rowSpan_le fun row hrow => mem_rowSpan (h row hrow)

namespace PivotRow

/-- A row of a given width that begins with its pivot. -/
structure IsPivot (width : ℕ) (p : PivotRow) : Prop where
  length_eq : p.entries.length = width
  column_lt : p.column < width
  pivot : entriesAt p.entries p.column = 1
  before : ∀ j < p.column, entriesAt p.entries j = 0

/-- Rows by pivot, each with zeros in the columns of the other pivots. -/
structure IsReduced (width : ℕ) (ps : List PivotRow) : Prop where
  pivots : ∀ p ∈ ps, p.IsPivot width
  ascending : (ps.map PivotRow.column).Pairwise (· < ·)
  cleared : ∀ p ∈ ps, ∀ q ∈ ps, p.column ≠ q.column → entriesAt p.entries q.column = 0

/-! ## Clearing -/

variable {width : ℕ} {p : PivotRow} {ps : List PivotRow} {row : List ℚ}

theorem length_clear (hp : p.IsPivot width) (hr : row.length = width) :
    (p.clear row).length = width := by
  unfold clear
  split
  · exact hr
  · rw [List.length_zipWith, hr, hp.length_eq, Nat.min_self]

/-- Clearing subtracts the multiple of the pivot row that has the same entry in its column. -/
theorem entriesAt_clear (hp : p.IsPivot width) (hr : row.length = width) :
    entriesAt (p.clear row) = entriesAt row - entriesAt row p.column • entriesAt p.entries := by
  have hc : row[p.column]? = some (entriesAt row p.column) := by
    rw [entriesAt, List.getD_eq_getElem?_getD, List.getElem?_eq_getElem (hr ▸ hp.column_lt)]
    rfl
  funext j
  unfold clear
  simp only [hc, Pi.sub_apply, Pi.smul_apply, smul_eq_mul]
  generalize entriesAt row p.column = c
  simp only [entriesAt, List.getD_eq_getElem?_getD, List.getElem?_zipWith]
  by_cases hj : j < width
  · rw [List.getElem?_eq_getElem (hr ▸ hj), List.getElem?_eq_getElem (hp.length_eq ▸ hj)]
    rfl
  · have h₁ : row[j]? = none := List.getElem?_eq_none (by omega)
    have h₂ : p.entries[j]? = none := List.getElem?_eq_none (by rw [hp.length_eq]; omega)
    simp [h₁, h₂]

theorem entriesAt_clear_column (hp : p.IsPivot width) (hr : row.length = width) :
    entriesAt (p.clear row) p.column = 0 := by
  simp [entriesAt_clear hp hr, hp.pivot]

theorem entriesAt_clear_of_zero (hp : p.IsPivot width) (hr : row.length = width) {j : ℕ}
    (hj : entriesAt p.entries j = 0) : entriesAt (p.clear row) j = entriesAt row j := by
  simp [entriesAt_clear hp hr, hj]

/-- A row cleared by several pivot rows one after the other. -/
def clearAll (ps : List PivotRow) (row : List ℚ) : List ℚ :=
  ps.foldl (fun row p => p.clear row) row

theorem length_clearAll : ∀ {ps : List PivotRow} {row : List ℚ}, (∀ p ∈ ps, p.IsPivot width) →
    row.length = width → (clearAll ps row).length = width
  | [], _, _, hr => hr
  | p :: ps, row, h, hr => by
    show (clearAll ps (p.clear row)).length = width
    exact length_clearAll (fun q hq => h q (List.mem_cons_of_mem _ hq))
      (length_clear (h p List.mem_cons_self) hr)

theorem entriesAt_clearAll_of_zero {j : ℕ} : ∀ {ps : List PivotRow} {row : List ℚ},
    (∀ p ∈ ps, p.IsPivot width) → (∀ p ∈ ps, entriesAt p.entries j = 0) → row.length = width →
    entriesAt (clearAll ps row) j = entriesAt row j
  | [], _, _, _, _ => rfl
  | p :: ps, row, h, hz, hr => by
    have hp := h p List.mem_cons_self
    have ih := entriesAt_clearAll_of_zero (fun q hq => h q (List.mem_cons_of_mem _ hq))
      (fun q hq => hz q (List.mem_cons_of_mem _ hq)) (length_clear hp hr)
    exact ih.trans (entriesAt_clear_of_zero hp hr (hz p List.mem_cons_self))

theorem IsReduced.tail (h : IsReduced width (p :: ps)) : IsReduced width ps :=
  ⟨fun q hq => h.pivots q (List.mem_cons_of_mem _ hq), (List.pairwise_cons.mp h.ascending).2,
    fun q hq r hr => h.cleared q (List.mem_cons_of_mem _ hq) r (List.mem_cons_of_mem _ hr)⟩

theorem IsReduced.head_lt (h : IsReduced width (p :: ps)) : ∀ q ∈ ps, p.column < q.column :=
  fun _ hq => (List.pairwise_cons.mp h.ascending).1 _ (List.mem_map_of_mem hq)

/-- A row cleared by reduced rows has zeros in their columns and differs by their multiples. -/
theorem clearAll_spec : ∀ {ps : List PivotRow} {row : List ℚ}, IsReduced width ps →
    row.length = width → (∀ p ∈ ps, entriesAt (clearAll ps row) p.column = 0) ∧
      entriesAt row - entriesAt (clearAll ps row) ∈ rowSpan (ps.map entries)
  | [], row, _, _ => ⟨fun _ h => (nomatch h), by simp [clearAll]⟩
  | p :: ps, row, h, hr => by
    have hp := h.pivots p List.mem_cons_self
    have hl := length_clear hp hr
    obtain ⟨hz, hs⟩ := clearAll_spec h.tail hl
    have hother : ∀ q ∈ ps, entriesAt q.entries p.column = 0 := fun q hq =>
      h.cleared q (List.mem_cons_of_mem _ hq) p List.mem_cons_self (h.head_lt q hq).ne'
    refine ⟨?_, ?_⟩
    · intro q hq
      rcases List.mem_cons.mp hq with rfl | hq
      · show entriesAt (clearAll ps (q.clear row)) q.column = 0
        rw [entriesAt_clearAll_of_zero h.tail.pivots hother hl, entriesAt_clear_column hp hr]
      · exact hz q hq
    · show entriesAt row - entriesAt (clearAll ps (p.clear row)) ∈ _
      have hstep : entriesAt row - entriesAt (p.clear row) ∈ rowSpan ((p :: ps).map entries) := by
        rw [entriesAt_clear hp hr, sub_sub_cancel]
        exact Submodule.smul_mem _ _ (mem_rowSpan List.mem_cons_self)
      have hrest := rowSpan_mono (fun r hr => List.mem_cons_of_mem p.entries hr) hs
      simpa using Submodule.add_mem _ hstep hrest

/-! ## New pivot rows -/

theorem entriesAt_map_div (row : List ℚ) (c : ℚ) :
    entriesAt (row.map (· / c)) = c⁻¹ • entriesAt row := by
  funext j
  simp only [entriesAt, List.getD_eq_getElem?_getD, List.getElem?_map, Pi.smul_apply, smul_eq_mul]
  cases row[j]? with
  | none => simp
  | some x => simp [div_eq_inv_mul]

theorem ofRow?_eq_none (h : ofRow? row = none) : entriesAt row = 0 := by
  unfold ofRow? at h
  split at h
  · rename_i hf
    rw [List.findIdx?_eq_none_iff] at hf
    funext j
    simp only [entriesAt, List.getD_eq_getElem?_getD, Pi.zero_apply]
    cases hj : row[j]? with
    | none => rfl
    | some x => simpa using hf x (List.mem_of_getElem? hj)
  · rename_i column hf
    obtain ⟨hlt, -, -⟩ := List.findIdx?_eq_some_iff_getElem.mp hf
    rw [List.getElem?_eq_getElem hlt] at h
    cases h

/-- The pivot row of a row is a multiple of it. -/
theorem ofRow?_spec (h : ofRow? row = some p) :
    p.IsPivot row.length ∧ ∃ c : ℚ, c ≠ 0 ∧ entriesAt p.entries = c⁻¹ • entriesAt row := by
  unfold ofRow? at h
  split at h
  · cases h
  · rename_i column hf
    obtain ⟨hlt, hne, hbefore⟩ := List.findIdx?_eq_some_iff_getElem.mp hf
    rw [List.getElem?_eq_getElem hlt] at h
    cases h
    have hne : row[column] ≠ 0 := by simpa using hne
    have hcol : entriesAt row column = row[column] := by
      rw [entriesAt, List.getD_eq_getElem?_getD, List.getElem?_eq_getElem hlt]
      rfl
    refine ⟨⟨by simp, hlt, ?_, ?_⟩, row[column], hne, entriesAt_map_div _ _⟩
    · rw [entriesAt_map_div, Pi.smul_apply, smul_eq_mul, hcol, inv_mul_cancel₀ hne]
    · intro j hj
      have hz : entriesAt row j = 0 := by
        rw [entriesAt, List.getD_eq_getElem?_getD, List.getElem?_eq_getElem (hj.trans hlt)]
        simpa using hbefore j hj
      rw [entriesAt_map_div, Pi.smul_apply, hz, smul_zero]

theorem place_perm (p : PivotRow) : ∀ ps : List PivotRow, (p.place ps).Perm (p :: ps)
  | [] => List.Perm.refl _
  | q :: qs => by
    unfold place
    split
    · exact List.Perm.refl _
    · exact ((place_perm p qs).cons q).trans (List.Perm.swap _ _ _)

theorem place_ascending : ∀ {ps : List PivotRow}, (ps.map column).Pairwise (· < ·) →
    (∀ q ∈ ps, q.column ≠ p.column) → ((p.place ps).map column).Pairwise (· < ·)
  | [], _, _ => List.pairwise_singleton _ _
  | q :: qs, h, hne => by
    have hq := hne q List.mem_cons_self
    obtain ⟨hlt, htail⟩ := List.pairwise_cons.mp h
    unfold place
    split
    · refine List.pairwise_cons.mpr ⟨?_, h⟩
      intro c hc
      rcases List.mem_cons.mp hc with rfl | hc
      · omega
      · have := hlt c hc
        omega
    · refine List.pairwise_cons.mpr
        ⟨?_, place_ascending htail fun r hr => hne r (List.mem_cons_of_mem _ hr)⟩
      intro c hc
      rcases List.mem_cons.mp (((place_perm p qs).map column).mem_iff.mp hc) with rfl | hc
      · omega
      · exact hlt c hc

/-! ## One more row -/

/-- The pivot rows of `ps` cleared by `p`. -/
def clearRows (p : PivotRow) (ps : List PivotRow) : List PivotRow :=
  ps.map fun q => ⟨q.column, p.clear q.entries⟩

theorem isPivot_clear {q : PivotRow} (hp : p.IsPivot width) (hq : q.IsPivot width)
    (hz : entriesAt p.entries q.column = 0) : IsPivot width ⟨q.column, p.clear q.entries⟩ := by
  refine ⟨length_clear hp hq.length_eq, hq.column_lt, ?_, ?_⟩
  · rw [entriesAt_clear_of_zero hp hq.length_eq hz, hq.pivot]
  · intro j hj
    rw [entriesAt_clear hp hq.length_eq, Pi.sub_apply, Pi.smul_apply, hq.before j hj]
    -- before both pivots the new row is zero, behind its own pivot the old row has not begun
    have hj : j < q.column := hj
    rcases lt_or_ge p.column q.column with hlt | hge
    · rw [hq.before _ hlt, zero_smul, sub_zero]
    · rw [hp.before j (by omega), smul_zero, sub_zero]

theorem IsReduced.place (h : IsReduced width ps) (hp : p.IsPivot width)
    (hz : ∀ q ∈ ps, entriesAt p.entries q.column = 0) :
    IsReduced width (p.place (p.clearRows ps)) := by
  have hne : ∀ q ∈ ps, q.column ≠ p.column := by
    intro q hq he
    have := hz q hq
    rw [he, hp.pivot] at this
    exact one_ne_zero this
  have hmem : ∀ q, q ∈ p.place (p.clearRows ps) ↔
      q = p ∨ ∃ r ∈ ps, (⟨r.column, p.clear r.entries⟩ : PivotRow) = q := by
    intro q
    rw [(place_perm p _).mem_iff, List.mem_cons, clearRows, List.mem_map]
  have hcolumns : (p.clearRows ps).map column = ps.map column := by
    rw [clearRows, List.map_map]
    rfl
  refine ⟨?_, ?_, ?_⟩
  · intro q hq
    rcases (hmem q).mp hq with rfl | ⟨r, hr, rfl⟩
    · exact hp
    · exact isPivot_clear hp (h.pivots r hr) (hz r hr)
  · refine place_ascending (by rw [hcolumns]; exact h.ascending) ?_
    intro q hq
    obtain ⟨r, hr, rfl⟩ := List.mem_map.mp hq
    exact hne r hr
  · intro q hq r hr hqr
    rcases (hmem q).mp hq with rfl | ⟨q', hq', rfl⟩ <;>
      rcases (hmem r).mp hr with rfl | ⟨r', hr', rfl⟩
    · exact absurd rfl hqr
    · exact hz r' hr'
    · exact entriesAt_clear_column hp (h.pivots q' hq').length_eq
    · rw [entriesAt_clear_of_zero hp (h.pivots q' hq').length_eq (hz r' hr')]
      exact h.cleared q' hq' r' hr' hqr

theorem rowSpan_place (h : ∀ q ∈ ps, q.IsPivot width) (hp : p.IsPivot width) :
    rowSpan ((p.place (p.clearRows ps)).map entries) = rowSpan (p.entries :: ps.map entries) := by
  have hperm := (place_perm p (p.clearRows ps)).map entries
  have hpmem : entriesAt p.entries ∈ rowSpan ((p.place (p.clearRows ps)).map entries) :=
    mem_rowSpan (hperm.mem_iff.mpr List.mem_cons_self)
  refine le_antisymm (rowSpan_le fun row hrow => ?_) (rowSpan_le fun row hrow => ?_)
  · rcases List.mem_cons.mp (hperm.mem_iff.mp hrow) with rfl | hrow
    · exact mem_rowSpan List.mem_cons_self
    · obtain ⟨_, hcleared, rfl⟩ := List.mem_map.mp hrow
      obtain ⟨q, hq, rfl⟩ := List.mem_map.mp hcleared
      rw [entriesAt_clear hp (h q hq).length_eq]
      exact Submodule.sub_mem _
        (mem_rowSpan (List.mem_cons_of_mem _ (List.mem_map_of_mem hq)))
        (Submodule.smul_mem _ _ (mem_rowSpan List.mem_cons_self))
  · rcases List.mem_cons.mp hrow with rfl | hrow
    · exact hpmem
    · obtain ⟨q, hq, rfl⟩ := List.mem_map.mp hrow
      have hclear : entriesAt (p.clear q.entries) ∈
          rowSpan ((p.place (p.clearRows ps)).map entries) :=
        mem_rowSpan (hperm.mem_iff.mpr (List.mem_cons_of_mem _ (List.mem_map.mpr
          ⟨⟨q.column, p.clear q.entries⟩, List.mem_map_of_mem hq, rfl⟩)))
      rw [entriesAt_clear hp (h q hq).length_eq] at hclear
      simpa using Submodule.add_mem _ hclear
        (Submodule.smul_mem _ (entriesAt q.entries p.column) hpmem)

/-- **One more row keeps the rows reduced and adds it to their span.** -/
theorem insert_spec (h : IsReduced width ps) (hr : row.length = width) :
    IsReduced width (insert ps row) ∧
      rowSpan ((insert ps row).map entries) = rowSpan (row :: ps.map entries) := by
  obtain ⟨hz, hs⟩ := clearAll_spec h hr
  have hl := length_clearAll h.pivots hr
  have hps : rowSpan (ps.map entries) ≤ rowSpan (row :: ps.map entries) :=
    rowSpan_mono fun r hr => List.mem_cons_of_mem _ hr
  unfold insert
  rw [show ps.foldl (fun row p => p.clear row) row = clearAll ps row from rfl]
  cases ho : ofRow? (clearAll ps row) with
  | none =>
      rw [ofRow?_eq_none ho, sub_zero] at hs
      refine ⟨h, le_antisymm hps (rowSpan_le fun r hr => ?_)⟩
      rcases List.mem_cons.mp hr with rfl | hr
      · exact hs
      · exact mem_rowSpan hr
  | some p =>
      obtain ⟨hp, c, hc, hpc⟩ := ofRow?_spec ho
      rw [hl] at hp
      have hzp : ∀ q ∈ ps, entriesAt p.entries q.column = 0 := by
        intro q hq
        rw [hpc, Pi.smul_apply, hz q hq, smul_zero]
      refine ⟨h.place hp hzp, (rowSpan_place h.pivots hp).trans ?_⟩
      have hback : entriesAt (clearAll ps row) = c • entriesAt p.entries := by
        rw [hpc, smul_smul, mul_inv_cancel₀ hc, one_smul]
      refine le_antisymm (rowSpan_le fun r hr => ?_) (rowSpan_le fun r hr => ?_)
      · rcases List.mem_cons.mp hr with rfl | hr
        · rw [hpc]
          refine Submodule.smul_mem _ _ ?_
          simpa using Submodule.sub_mem _ (mem_rowSpan List.mem_cons_self) (hps hs)
        · exact mem_rowSpan (List.mem_cons_of_mem _ hr)
      · have hps' : rowSpan (ps.map entries) ≤ rowSpan (p.entries :: ps.map entries) :=
          rowSpan_mono fun r hr => List.mem_cons_of_mem _ hr
        rcases List.mem_cons.mp hr with rfl | hr
        · have hmul : entriesAt (clearAll ps r) ∈ rowSpan (p.entries :: ps.map entries) := by
            rw [hback]
            exact Submodule.smul_mem _ c (mem_rowSpan List.mem_cons_self)
          simpa using Submodule.add_mem _ (hps' hs) hmul
        · exact mem_rowSpan (List.mem_cons_of_mem _ hr)

/-! ## All rows -/

theorem IsReduced.nil : IsReduced width [] :=
  ⟨fun _ h => (nomatch h), List.Pairwise.nil, fun _ h => (nomatch h)⟩

theorem foldl_insert_spec : ∀ {rows : List (List ℚ)} {ps : List PivotRow},
    (∀ row ∈ rows, row.length = width) → IsReduced width ps →
    IsReduced width (rows.foldl insert ps) ∧
      rowSpan ((rows.foldl insert ps).map entries) = rowSpan (ps.map entries ++ rows)
  | [], ps, _, h => ⟨h, by simp⟩
  | row :: rows, ps, hl, h => by
    obtain ⟨hi, hs⟩ := insert_spec h (hl row List.mem_cons_self)
    obtain ⟨hr, ht⟩ := foldl_insert_spec (fun r hr => hl r (List.mem_cons_of_mem _ hr)) hi
    refine ⟨hr, ht.trans (le_antisymm (rowSpan_le fun r hr => ?_) (rowSpan_le fun r hr => ?_))⟩
    · rcases List.mem_append.mp hr with hr | hr
      · have hmem : entriesAt r ∈ rowSpan (row :: ps.map entries) := hs ▸ mem_rowSpan hr
        refine rowSpan_mono (fun q hq => ?_) hmem
        rcases List.mem_cons.mp hq with rfl | hq
        · exact List.mem_append_right _ List.mem_cons_self
        · exact List.mem_append_left _ hq
      · exact mem_rowSpan (List.mem_append_right _ (List.mem_cons_of_mem _ hr))
    · have hle : rowSpan (row :: ps.map entries) ≤
          rowSpan ((insert ps row).map entries ++ rows) := by
        rw [← hs]
        exact rowSpan_mono fun q hq => List.mem_append_left _ hq
      rcases List.mem_append.mp hr with hr | hr
      · exact hle (mem_rowSpan (List.mem_cons_of_mem _ hr))
      · rcases List.mem_cons.mp hr with rfl | hr
        · exact hle (mem_rowSpan List.mem_cons_self)
        · exact mem_rowSpan (List.mem_append_right _ hr)

/-- **Row reduction gives reduced rows with the span of the given ones.** -/
theorem reduce_spec {rows : List (List ℚ)} (h : ∀ row ∈ rows, row.length = width) :
    IsReduced width (reduce rows) ∧ rowSpan ((reduce rows).map entries) = rowSpan rows := by
  simpa [reduce] using foldl_insert_spec h IsReduced.nil

end PivotRow

end TensorEquations
