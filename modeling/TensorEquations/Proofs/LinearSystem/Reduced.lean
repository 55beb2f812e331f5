import TensorEquations.Proofs.LinearSystem.Solution

/-!
# Systems that are solved already

* `PivotRow.reduce_entries` — row reduction leaves reduced rows as they are.
* `columnOrder_of_firsts` — distinct first variables that occur in no other place of the rows are the first
  columns, in order.
* `solveRows_of_solved` — **a system that is solved for the first variables of its rows is solved into just
  the pairs that it states.**
-/

namespace TensorEquations

open MvPolynomial

/-- Rows of one length are equal if they have the same entries. -/
theorem entriesAt_ext {row row' : List ℚ} (hl : row.length = row'.length)
    (h : entriesAt row = entriesAt row') : row = row' := by
  refine List.ext_getElem hl fun j hj hj' => ?_
  have hentry := congrFun h j
  simpa [entriesAt, List.getD_eq_getElem?_getD, hj, hj'] using hentry

namespace PivotRow

variable {width : ℕ} {p : PivotRow} {ps qs : List PivotRow} {row : List ℚ}

/-! ## Reduced rows -/

theorem IsReduced.sublist (h : IsReduced width ps) (hs : qs.Sublist ps) : IsReduced width qs :=
  ⟨fun q hq => h.pivots q (hs.subset hq), h.ascending.sublist (hs.map column),
    fun q hq r hr => h.cleared q (hs.subset hq) r (hs.subset hr)⟩

/-- There is nothing to clear in a row with a zero in the column of the pivot. -/
theorem clear_eq_self (hp : p.IsPivot width) (hr : row.length = width)
    (hz : entriesAt row p.column = 0) : p.clear row = row := by
  refine entriesAt_ext ((length_clear hp hr).trans hr.symm) ?_
  rw [entriesAt_clear hp hr, hz, zero_smul, sub_zero]

theorem clearAll_eq_self : ∀ {ps : List PivotRow}, (∀ p ∈ ps, p.IsPivot width) →
    row.length = width → (∀ p ∈ ps, entriesAt row p.column = 0) → clearAll ps row = row
  | [], _, _, _ => rfl
  | p :: ps, h, hr, hz => by
    show clearAll ps (p.clear row) = row
    rw [clear_eq_self (h p List.mem_cons_self) hr (hz p List.mem_cons_self)]
    exact clearAll_eq_self (fun q hq => h q (List.mem_cons_of_mem _ hq)) hr
      fun q hq => hz q (List.mem_cons_of_mem _ hq)

/-- A pivot row is found again in its entries. -/
theorem ofRow?_entries (h : p.IsPivot width) : ofRow? p.entries = some p := by
  have hlt : p.column < p.entries.length := h.length_eq ▸ h.column_lt
  have hentry : ∀ {j : ℕ} (hj : j < p.entries.length), p.entries[j] = entriesAt p.entries j := by
    intro j hj
    simp [entriesAt, List.getD_eq_getElem?_getD, hj]
  have hone : p.entries[p.column] = 1 := (hentry hlt).trans h.pivot
  have hfind : p.entries.findIdx? (· ≠ 0) = some p.column := by
    refine List.findIdx?_eq_some_iff_getElem.mpr ⟨hlt, by simp [hone], fun j hj => ?_⟩
    simp [hentry (hj.trans hlt), h.before j hj]
  unfold ofRow?
  rw [hfind]
  simp [List.getElem?_eq_getElem hlt, hone]

/-- A pivot behind all others is placed at the end. -/
theorem place_eq_append : ∀ {ps : List PivotRow}, (∀ q ∈ ps, q.column < p.column) →
    p.place ps = ps ++ [p]
  | [], _ => rfl
  | q :: qs, h => by
    have hq := h q List.mem_cons_self
    unfold place
    rw [if_neg (by omega), place_eq_append fun r hr => h r (List.mem_cons_of_mem _ hr)]
    rfl

/-- The next one of reduced rows is put behind the ones before. -/
theorem insert_entries (h : IsReduced width (ps ++ [p])) : insert ps p.entries = ps ++ [p] := by
  have hps := h.sublist (List.sublist_append_left ps [p])
  have hp : p.IsPivot width := h.pivots p (by simp)
  have hlt : ∀ q ∈ ps, q.column < p.column := by
    have hascending := h.ascending
    rw [List.map_append, List.pairwise_append] at hascending
    exact fun q hq => hascending.2.2 _ (List.mem_map_of_mem hq) _ (by simp)
  have hmem : ∀ q ∈ ps, q ∈ ps ++ [p] := fun q hq => List.mem_append_left _ hq
  have hclear : clearAll ps p.entries = p.entries :=
    clearAll_eq_self hps.pivots hp.length_eq fun q hq =>
      h.cleared p (by simp) q (hmem q hq) (hlt q hq).ne'
  have hcleared : p.clearRows ps = ps := by
    refine (List.map_congr_left fun q hq => ?_).trans (List.map_id ps)
    have hz : entriesAt q.entries p.column = 0 := h.cleared q (hmem q hq) p (by simp) (hlt q hq).ne
    rw [clear_eq_self hp (hps.pivots q hq).length_eq hz]
    rfl
  unfold insert
  rw [show ps.foldl (fun row p => p.clear row) p.entries = clearAll ps p.entries from rfl, hclear,
    ofRow?_entries hp]
  show p.place (p.clearRows ps) = _
  rw [hcleared, place_eq_append hlt]

theorem foldl_insert_entries : ∀ {ps qs : List PivotRow}, IsReduced width (ps ++ qs) →
    (qs.map entries).foldl insert ps = ps ++ qs
  | ps, [], _ => by simp
  | ps, q :: qs, h => by
    have hsplit : ps ++ q :: qs = ps ++ [q] ++ qs := by simp
    rw [hsplit] at h ⊢
    rw [List.map_cons, List.foldl_cons, insert_entries (h.sublist (List.sublist_append_left _ qs))]
    exact foldl_insert_entries h

/-- **Row reduction leaves reduced rows as they are.** -/
theorem reduce_entries (h : IsReduced width ps) : reduce (ps.map entries) = ps :=
  foldl_insert_entries h

end PivotRow

/-! ## Columns -/

theorem appendNew_eq_append : ∀ (names columns : List String),
    ∃ extra, appendNew columns names = columns ++ extra ∧ ∀ n ∈ extra, n ∈ names
  | [], columns => ⟨[], by simp [appendNew], by simp⟩
  | name :: names, columns => by
    obtain ⟨extra, he, hm⟩ := appendNew_eq_append names
      (if columns.contains name then columns else columns ++ [name])
    have hcons : appendNew columns (name :: names) =
      appendNew (if columns.contains name then columns else columns ++ [name]) names := rfl
    rw [hcons, he]
    split
    · exact ⟨extra, rfl, fun n hn => List.mem_cons_of_mem _ (hm n hn)⟩
    · refine ⟨name :: extra, by simp, fun n hn => ?_⟩
      rcases List.mem_cons.mp hn with rfl | hn
      · exact List.mem_cons_self
      · exact List.mem_cons_of_mem _ (hm n hn)

/-- A row that begins with a variable, the others being none of `names`. -/
def LinearRow.BeginsWith (names : List String) (r : LinearRow) (name : String) : Prop :=
  ∃ others, r.unknowns = name :: others ∧ ∀ n ∈ others, n ∉ names

/-- The first variable of a row takes its place behind the ones before, the others are appended. -/
theorem addColumns_of_beginsWith {names front extra : List String} {r : LinearRow} {name : String}
    (hr : r.BeginsWith names name) (hf : name ∉ front) (he : name ∉ extra)
    (hextra : ∀ n ∈ extra, n ∉ names) :
    ∃ extra', addColumns (front ++ extra, front.length) r =
      (front ++ [name] ++ extra', (front ++ [name]).length) ∧ ∀ n ∈ extra', n ∉ names := by
  obtain ⟨others, hu, ho⟩ := hr
  obtain ⟨more, hm, hsub⟩ := appendNew_eq_append others (front ++ [name] ++ extra)
  have hpromote : promote (front ++ extra) front.length name = front ++ [name] ++ extra := by
    unfold promote
    rw [List.erase_of_not_mem (by simp [hf, he])]
    simp
  refine ⟨extra ++ more, ?_, fun n hn => ?_⟩
  · unfold addColumns
    rw [hu]
    simp only [hpromote, hm]
    simp
  · rcases List.mem_append.mp hn with hn | hn
    · exact hextra n hn
    · exact ho n (hsub n hn)

theorem foldl_addColumns_of_beginsWith {names : List String} : ∀ {rows : List LinearRow}
    {firsts front extra : List String}, List.Forall₂ (LinearRow.BeginsWith names) rows firsts →
    (front ++ firsts).Nodup → (∀ n ∈ firsts, n ∈ names) → (∀ n ∈ extra, n ∉ names) →
    ∃ extra', (rows.foldl addColumns (front ++ extra, front.length)).1 = front ++ firsts ++ extra'
  | [], [], front, extra, _, _, _, _ => ⟨extra, by simp⟩
  | r :: rows, name :: firsts, front, extra, h, hn, hm, hextra => by
    obtain ⟨hr, hrows⟩ := List.forall₂_cons.mp h
    have hsplit : front ++ name :: firsts = front ++ [name] ++ firsts := by simp
    have hf : name ∉ front := fun hmem =>
      (List.nodup_append.mp hn).2.2 name hmem name List.mem_cons_self rfl
    have he : name ∉ extra := fun hmem => hextra name hmem (hm name List.mem_cons_self)
    obtain ⟨extra', hadd, hextra'⟩ := addColumns_of_beginsWith hr hf he hextra
    rw [hsplit] at hn ⊢
    rw [List.foldl_cons, hadd]
    exact foldl_addColumns_of_beginsWith hrows hn (fun n hn => hm n (List.mem_cons_of_mem _ hn)) hextra'

/-- Distinct first variables that occur in no other place are the first columns. -/
theorem columnOrder_of_firsts {rows : List LinearRow} {firsts : List String}
    (h : List.Forall₂ (LinearRow.BeginsWith firsts) rows firsts) (hn : firsts.Nodup) :
    ∃ extra, columnOrder rows = firsts ++ extra := by
  have hnone : ([] ++ firsts).Nodup := hn
  have hextra : ∀ n ∈ ([] : List String), n ∉ firsts := nofun
  simpa [columnOrder] using foldl_addColumns_of_beginsWith h hnone (fun _ hn => hn) hextra

/-! ## Solved systems -/

/-- The row of `name = right` with `name` in front. -/
structure LinearRow.StatesPair (r : LinearRow) (pair : String × Scalar) : Prop where
  denotes : r.Denotes (X pair.1 - pair.2.poly)
  first : r.unknowns.head? = some pair.1

/-- The variables of such a row behind the first one occur on the right. -/
theorem LinearRow.StatesPair.beginsWith {r : LinearRow} {pair : String × Scalar} (h : r.StatesPair pair)
    {names : List String} (hnames : ∀ n ∈ names, n ∉ pair.2.poly.vars) : r.BeginsWith names pair.1 := by
  obtain ⟨others, hu⟩ := List.head?_eq_some_iff.mp h.first
  refine ⟨others, hu, fun n hn hmem => ?_⟩
  have hnodup : r.unknowns.Nodup := h.denotes.unknowns.nodup_iff.mpr h.denotes.nodup
  have hne : n ≠ pair.1 := by
    rintro rfl
    exact (List.nodup_cons.mp (hu ▸ hnodup)).1 hn
  have hvars : n ∈ (X pair.1 - pair.2.poly : Poly).vars :=
    h.denotes.mem_vars (hu ▸ List.mem_cons_of_mem _ hn)
  rcases Finset.mem_union.mp (vars_sub_subset _ hvars) with hv | hv
  · rw [vars_X, Finset.mem_singleton] at hv
    exact hne hv
  · exact hnames n hmem hv

theorem coeff_single_of_not_mem {name : String} {p : Poly} (h : name ∉ p.vars) :
    coeff (Finsupp.single name 1) p = 0 := by
  by_contra hne
  exact h ((mem_vars_iff_mem_support name).mpr ⟨_, mem_support_iff.mpr hne, by simp⟩)

/-- The entry of such a row in the column of a variable that is not on the right. -/
theorem LinearRow.StatesPair.entriesAt_rationals {r : LinearRow} {pair : String × Scalar} (h : r.StatesPair pair)
    {columns : List String} (hn : columns.Nodup) (hm : ∀ n ∈ r.unknowns, n ∈ columns) {name : String}
    {j : ℕ} (hj : columns[j]? = some name) (hv : name ∉ pair.2.poly.vars) :
    entriesAt (r.rationals columns) j = if pair.1 = name then 1 else 0 := by
  have hentry := coeff_systemPoly (v := entriesAt (r.rationals columns)) hn hj
  rw [← hentry, r.systemPoly_rationals h.denotes hn hm, coeff_sub, coeff_single_of_not_mem hv,
    sub_zero, coeff_X]
  simp [Finsupp.single_left_inj]

/-- The rows of such a system with their pivots. -/
def solvedPivots (columns : List String) (rows : List LinearRow) : List PivotRow :=
  rows.mapIdx fun i r => ⟨i, r.rationals columns⟩

theorem entries_solvedPivots (columns : List String) (rows : List LinearRow) :
    (solvedPivots columns rows).map PivotRow.entries = rows.map (·.rationals columns) :=
  List.ext_getElem (by simp [solvedPivots]) fun i _ _ => by simp [solvedPivots]

/-- Rows that state pairs in solved form: distinct variables, none of them on the right. -/
structure StateSolved (rows : List LinearRow) (pairs : List (String × Scalar)) : Prop where
  states : List.Forall₂ LinearRow.StatesPair rows pairs
  distinct : (pairs.map Prod.fst).Nodup
  solved : ∀ pair ∈ pairs, ∀ other ∈ pairs, pair.1 ∉ other.2.poly.vars

namespace StateSolved

variable {rows : List LinearRow} {pairs : List (String × Scalar)}

theorem denotes (h : StateSolved rows pairs) : List.Forall₂ LinearRow.Denotes rows
    (pairs.map fun pair => X pair.1 - pair.2.poly) :=
  List.forall₂_map_right_iff.mpr (h.states.imp fun _ _ hr => hr.denotes)

theorem length_eq (h : StateSolved rows pairs) : rows.length = pairs.length := h.states.length_eq

theorem get (h : StateSolved rows pairs) {i : ℕ} (hr : i < rows.length) (hi : i < pairs.length) :
    rows[i].StatesPair pairs[i] :=
  (List.forall₂_iff_get.mp h.states).2 i hr hi

/-- The variables of the pairs are the first columns. -/
theorem getElem?_columnOrder (h : StateSolved rows pairs) {i : ℕ} (hi : i < pairs.length) :
    (columnOrder rows)[i]? = some pairs[i].1 := by
  have hbegins : List.Forall₂ (LinearRow.BeginsWith (pairs.map Prod.fst)) rows (pairs.map Prod.fst) := by
    refine List.forall₂_map_right_iff.mpr (List.forall₂_iff_get.mpr ⟨h.length_eq, fun i hi hi' => ?_⟩)
    refine (h.get hi hi').beginsWith fun n hn => ?_
    obtain ⟨pair, hpair, rfl⟩ := List.mem_map.mp hn
    exact h.solved pair hpair _ (List.getElem_mem hi')
  obtain ⟨extra, hcolumns⟩ := columnOrder_of_firsts hbegins h.distinct
  rw [hcolumns, List.getElem?_append_left (by simpa using hi)]
  simp [hi]

/-- The entries of the first columns are those of the unit matrix. -/
theorem entriesAt_eq (h : StateSolved rows pairs) {i j : ℕ} (hr : i < rows.length) (hi : i < pairs.length)
    (hj : j < pairs.length) :
    entriesAt (rows[i].rationals (columnOrder rows)) j = if i = j then 1 else 0 := by
  obtain ⟨hn, hcolumns⟩ := columnOrder_spec rows
  have hm : ∀ n ∈ rows[i].unknowns, n ∈ columnOrder rows :=
    fun n hmem => (hcolumns n).mpr ⟨_, List.getElem_mem hr, hmem⟩
  rw [(h.get hr hi).entriesAt_rationals hn hm (h.getElem?_columnOrder hj)
    (h.solved _ (List.getElem_mem hj) _ (List.getElem_mem hi))]
  have hinj : pairs[i].1 = pairs[j].1 ↔ i = j := by
    have hi' : i < (pairs.map Prod.fst).length := by simpa using hi
    have hj' : j < (pairs.map Prod.fst).length := by simpa using hj
    have hget : (pairs.map Prod.fst)[i] = (pairs.map Prod.fst)[j] ↔ i = j := h.distinct.getElem_inj_iff
    simpa using hget
  simp only [hinj]

theorem length_le_columnOrder (h : StateSolved rows pairs) : pairs.length ≤ (columnOrder rows).length := by
  by_contra hlt
  have hcolumn := h.getElem?_columnOrder (not_le.mp hlt)
  rw [List.getElem?_eq_none le_rfl] at hcolumn
  cases hcolumn

/-- Every row begins with its pivot, and the rows are reduced. -/
theorem isReduced (h : StateSolved rows pairs) :
    PivotRow.IsReduced ((columnOrder rows).length + 1) (solvedPivots (columnOrder rows) rows) := by
  have hle := h.length_le_columnOrder
  have hmem : ∀ p ∈ solvedPivots (columnOrder rows) rows, ∃ (i : ℕ) (hr : i < rows.length),
      i < pairs.length ∧ p = ⟨i, rows[i].rationals (columnOrder rows)⟩ := by
    intro p hp
    obtain ⟨i, hr, rfl⟩ := List.mem_mapIdx.mp hp
    exact ⟨i, hr, h.length_eq ▸ hr, rfl⟩
  refine ⟨fun p hp => ?_, ?_, fun p hp q hq hne => ?_⟩
  · obtain ⟨i, hr, hi, rfl⟩ := hmem p hp
    refine ⟨by simp [LinearRow.rationals], Nat.lt_succ_of_lt (hi.trans_le hle), ?_, fun j hj => ?_⟩
    · exact (h.entriesAt_eq hr hi hi).trans (if_pos rfl)
    · exact (h.entriesAt_eq hr hi (hj.trans hi)).trans (if_neg (ne_of_gt hj))
  · have hcolumns : (solvedPivots (columnOrder rows) rows).map PivotRow.column = List.range rows.length :=
      List.ext_getElem (by simp [solvedPivots]) fun i _ _ => by simp [solvedPivots]
    rw [hcolumns]
    exact List.pairwise_lt_range
  · obtain ⟨i, hr, hi, rfl⟩ := hmem p hp
    obtain ⟨j, _, hj, rfl⟩ := hmem q hq
    exact (h.entriesAt_eq hr hi hj).trans (if_neg hne)

/-- The right side is read back from its row. -/
theorem rest_eq (h : StateSolved rows pairs) (hx : ∀ pair ∈ pairs, IsExpanded pair.2.terms) {i : ℕ}
    (hr : i < rows.length) (hi : i < pairs.length) :
    PivotRow.rest (columnOrder rows) ⟨i, rows[i].rationals (columnOrder rows)⟩ = pairs[i].2 := by
  obtain ⟨hn, hcolumns⟩ := columnOrder_spec rows
  have hpivot := h.isReduced.pivots ⟨i, rows[i].rationals (columnOrder rows)⟩
    (List.mem_mapIdx.mpr ⟨i, hr, rfl⟩)
  have hspec := PivotRow.rest_spec hpivot (h.getElem?_columnOrder hi)
  have hrow := rows[i].systemPoly_rationals (h.get hr hi).denotes hn
    fun n hmem => (hcolumns n).mpr ⟨_, List.getElem_mem hr, hmem⟩
  have hpoly := sub_right_injective (hspec.symm.trans hrow)
  exact congrArg Scalar.mk ((PivotRow.rest_isExpanded _ _).ext (hx _ (List.getElem_mem hi)) hpoly)

end StateSolved

/-- **A system that is solved for the first variables of its rows is solved into just the pairs that it
states.** -/
theorem solveRows_of_solved {rows : List LinearRow} {pairs : List (String × Scalar)}
    (h : StateSolved rows pairs) (hx : ∀ pair ∈ pairs, IsExpanded pair.2.terms) :
    solveRows rows = .ok pairs := by
  have hlt : ∀ p ∈ solvedPivots (columnOrder rows) rows, p.column < (columnOrder rows).length := by
    intro p hp
    obtain ⟨i, hi, rfl⟩ := List.mem_mapIdx.mp hp
    exact (h.length_eq ▸ hi : i < pairs.length).trans_le h.length_le_columnOrder
  rw [solveRows_rationals h.denotes, ← entries_solvedPivots, PivotRow.reduce_entries h.isReduced,
    pairsFrom_of_lt hlt]
  refine congrArg _ (List.ext_getElem (by simp [solvedPivots, h.length_eq]) fun i hi hi' => ?_)
  have hname : (columnOrder rows).getD i "" = pairs[i].1 := by
    rw [List.getD_eq_getElem?_getD, h.getElem?_columnOrder hi', Option.getD_some]
  simp only [solvedPivots, List.getElem_map, List.getElem_mapIdx]
  exact Prod.ext hname (h.rest_eq hx (h.length_eq ▸ hi') hi')

end TensorEquations
