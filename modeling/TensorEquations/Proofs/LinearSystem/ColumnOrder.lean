import TensorEquations.Proofs.LinearSystem.Reduced
import TensorEquations.Substitution.Solving

/-!
# The order of the columns

The first variable of a row is the candidate for its pivot. Each row moves its candidate to the place behind
the candidates of the rows before it, and that place goes up by one with every row.

* `candidates`, `CandidatesFirst` — the first variables of the rows, and that their columns come first.
* `Gathers` — what the columns are after some rows: the candidates so far stand in front of the next place,
  `Gathers.addColumns` for one more row and `gathers_foldl` for all.
* `columnOrder_eq_append`, `candidatesFirst_iff_front` — the last row with variables decides: its candidate
  stands behind whatever is then in front of its place.
* `columnOrder_candidates` — **every variable has one column, and the candidates come first exactly if no row
  repeats a candidate or all variables before the last row are candidates.**
* `columnOrder_repeated_candidate` — a candidate that stands in front already moves down by the place that it
  leaves.
-/

namespace TensorEquations

/-! ## Candidates -/

/-- The first variables of the rows that have one. -/
def candidates (rows : List LinearRow) : List String := rows.filterMap fun r => r.unknowns.head?

/-- Every variable that is first in some row has its column before every variable that is first in none. -/
def CandidatesFirst (rows : List LinearRow) : Prop :=
  ∀ v ∈ candidates rows, ∀ w ∈ columnOrder rows, w ∉ candidates rows →
    (columnOrder rows).idxOf v < (columnOrder rows).idxOf w

instance (rows : List LinearRow) : Decidable (CandidatesFirst rows) :=
  inferInstanceAs (Decidable (∀ v ∈ candidates rows, ∀ w ∈ columnOrder rows, w ∉ candidates rows → _ < _))

/-- The rows with variables. -/
def openRows (rows : List LinearRow) : List LinearRow := rows.filter fun r => r.unknowns ≠ []

variable {rows : List LinearRow} {r : LinearRow} {state : List String × Nat}

theorem candidates_append (rows rows' : List LinearRow) :
    candidates (rows ++ rows') = candidates rows ++ candidates rows' := List.filterMap_append

theorem candidates_concat {first : String} {others : List String} (rows : List LinearRow)
    (hr : r.unknowns = first :: others) : candidates (rows ++ [r]) = candidates rows ++ [first] := by
  rw [candidates_append]
  simp [candidates, hr]

theorem candidates_concat_of_nil (rows : List LinearRow) (hr : r.unknowns = []) :
    candidates (rows ++ [r]) = candidates rows := by
  rw [candidates_append]
  simp [candidates, hr]

/-! ## Rows without variables -/

theorem candidates_openRows : ∀ rows : List LinearRow, candidates (openRows rows) = candidates rows
  | [] => rfl
  | r :: rows => by
    have ih := candidates_openRows rows
    cases hr : r.unknowns with
    | nil => simpa [candidates, openRows, hr] using ih
    | cons first others => simpa [candidates, openRows, hr] using ih

theorem foldl_addColumns_openRows : ∀ (rows : List LinearRow) (state : List String × Nat),
    (openRows rows).foldl addColumns state = rows.foldl addColumns state
  | [], _ => rfl
  | r :: rows, state => by
    have ih := foldl_addColumns_openRows rows
    cases hr : r.unknowns with
    | nil =>
      have hstate : addColumns state r = state := by simp [addColumns, hr]
      rw [List.foldl_cons, hstate, ← ih]
      simp [openRows, hr]
    | cons first others =>
      rw [List.foldl_cons, ← ih]
      simp [openRows, hr]

theorem columnOrder_openRows (rows : List LinearRow) : columnOrder (openRows rows) = columnOrder rows :=
  congrArg Prod.fst (foldl_addColumns_openRows rows ([], 0))

/-! ## What the rows so far have gathered -/

/-- The columns after some rows: every variable once, and the candidates in front of the next place. -/
structure Gathers (rows : List LinearRow) (state : List String × Nat) : Prop where
  nodup : state.1.Nodup
  mem_iff : ∀ n, n ∈ state.1 ↔ ∃ r ∈ rows, n ∈ r.unknowns
  place : state.2 = (candidates rows).length
  front : ∀ v ∈ candidates rows, v ∈ state.1.take state.2

/-- What stands in front of a place stays there when another element is taken out. -/
theorem mem_take_erase {v a : String} (hne : v ≠ a) : ∀ {xs : List String} {n : ℕ}, v ∈ xs.take n →
    v ∈ (xs.erase a).take n
  | [], n, h => by simp at h
  | x :: xs, 0, h => by simp at h
  | x :: xs, n + 1, h => by
    rw [List.erase_cons]
    rcases List.mem_cons.mp h with rfl | h
    · rw [if_neg (by simpa using hne)]
      exact List.mem_cons_self
    · split
      · exact (List.take_subset_take_left xs (Nat.le_succ n)) h
      · exact List.mem_cons_of_mem _ (mem_take_erase hne h)

theorem mem_take_append {v : String} {xs : List String} (ys : List String) {n : ℕ} (h : v ∈ xs)
    (hn : xs.length ≤ n) : v ∈ (xs ++ ys).take n := by
  rw [List.take_append, List.take_of_length_le hn]
  exact List.mem_append_left _ h

/-- The columns after a row with variables: its candidate stands behind what is in front of its place. -/
theorem addColumns_eq_append (state : List String × Nat) {first : String} {others : List String}
    (hr : r.unknowns = first :: others) :
    ∃ back, addColumns state r = ((state.1.erase first).take state.2 ++ [first] ++ back, state.2 + 1) := by
  obtain ⟨extra, hextra, -⟩ := appendNew_eq_append others (promote state.1 state.2 first)
  refine ⟨(state.1.erase first).drop state.2 ++ extra, ?_⟩
  unfold addColumns
  simp only [hr, hextra]
  simp [promote]

theorem gathers_nil : Gathers [] ([], 0) := by
  refine ⟨List.nodup_nil, ?_, rfl, ?_⟩
  · intro n
    simp
  · intro v hv
    simp [candidates] at hv

/-- **One more row**: its candidate joins the others, and the place goes up by one. -/
theorem Gathers.addColumns (h : Gathers rows state) (r : LinearRow) :
    Gathers (rows ++ [r]) (addColumns state r) := by
  obtain ⟨hnodup, hmem⟩ := addColumns_spec h.nodup r
  have hmem' : ∀ n, n ∈ (TensorEquations.addColumns state r).1 ↔ ∃ r' ∈ rows ++ [r], n ∈ r'.unknowns := by
    intro n
    rw [hmem, h.mem_iff]
    simp only [List.mem_append, List.mem_singleton, or_and_right, exists_or, exists_eq_left]
  cases hr : r.unknowns with
  | nil =>
    have hstate : TensorEquations.addColumns state r = state := by simp [TensorEquations.addColumns, hr]
    have hcandidates := candidates_concat_of_nil rows hr
    rw [hstate] at hnodup hmem' ⊢
    exact ⟨hnodup, hmem', hcandidates ▸ h.place, hcandidates ▸ h.front⟩
  | cons first others =>
    obtain ⟨back, hback⟩ := addColumns_eq_append state hr
    have hcandidates := candidates_concat rows hr
    refine ⟨hnodup, hmem', ?_, ?_⟩
    · rw [hback, hcandidates, List.length_append, List.length_singleton, h.place]
    · intro v hv
      rw [hback]
      refine mem_take_append back ?_ ?_
      · rw [hcandidates, List.mem_append, List.mem_singleton] at hv
        by_cases hvf : v = first
        · simp [hvf]
        · exact List.mem_append_left _ (mem_take_erase hvf (h.front v (hv.resolve_right hvf)))
      · rw [List.length_append, List.length_singleton]
        have := List.length_take_le state.2 (state.1.erase first)
        omega

theorem gathers_foldl (rows : List LinearRow) : Gathers rows (rows.foldl addColumns ([], 0)) := by
  induction rows using List.reverseRecOn with
  | nil => exact gathers_nil
  | append_singleton rows r ih =>
    rw [List.foldl_append]
    exact ih.addColumns r

/-! ## The last row with variables -/

/-- In a list without repetitions, some elements that all stand in front of a place, or right at it, come before
all others exactly if there is nothing else in front of the place. -/
theorem forall_idxOf_lt_iff {front back chosen : List String} {last : String}
    (hn : (front ++ [last] ++ back).Nodup) (hlast : last ∈ chosen)
    (hchosen : ∀ v ∈ chosen, v = last ∨ v ∈ front) :
    (∀ v ∈ chosen, ∀ w ∈ front ++ [last] ++ back, w ∉ chosen →
      (front ++ [last] ++ back).idxOf v < (front ++ [last] ++ back).idxOf w) ↔ ∀ w ∈ front, w ∈ chosen := by
  have hfront : ∀ v ∈ front, (front ++ [last] ++ back).idxOf v < front.length := by
    intro v hv
    rw [List.append_assoc, List.idxOf_append_of_mem hv]
    exact List.idxOf_lt_length_of_mem hv
  have hnot : last ∉ front := by
    intro h
    rw [List.append_assoc, List.nodup_append] at hn
    exact hn.2.2 _ h _ (by simp) rfl
  have hplace : (front ++ [last] ++ back).idxOf last = front.length := by
    rw [List.append_assoc, List.idxOf_append_of_notMem hnot]
    simp
  constructor
  · intro h w hw
    by_contra hc
    have hlt := h last hlast w (by simp [hw]) hc
    have := hfront w hw
    omega
  · intro h v hv w hw hc
    have hw' : w ∉ front ++ [last] := by
      intro hmem
      rcases List.mem_append.mp hmem with hmem | hmem
      · exact hc (h w hmem)
      · exact hc (List.mem_singleton.mp hmem ▸ hlast)
    have hbehind : front.length < (front ++ [last] ++ back).idxOf w := by
      rw [List.idxOf_append_of_notMem hw', List.length_append, List.length_singleton]
      omega
    rcases hchosen v hv with rfl | hv
    · omega
    · have := hfront v hv
      omega

/-- What stands in front of the place of a last row: the columns so far without its candidate, cut off there. -/
def frontOf (rows : List LinearRow) (first : String) : List String :=
  ((columnOrder rows).erase first).take (candidates rows).length

variable {first : String} {others : List String}

theorem columnOrder_eq_append (rows : List LinearRow) (hr : r.unknowns = first :: others) :
    ∃ back, columnOrder (rows ++ [r]) = frontOf rows first ++ [first] ++ back := by
  obtain ⟨back, hback⟩ := addColumns_eq_append (rows.foldl addColumns ([], 0)) hr
  refine ⟨back, ?_⟩
  rw [columnOrder, List.foldl_append, List.foldl_cons, List.foldl_nil, hback, (gathers_foldl rows).place]
  rfl

theorem mem_frontOf {v : String} (hv : v ∈ candidates rows) (hne : v ≠ first) : v ∈ frontOf rows first := by
  have h := gathers_foldl rows
  have hfront := h.front v hv
  rw [h.place] at hfront
  exact mem_take_erase hne hfront

theorem nodup_frontOf (rows : List LinearRow) (first : String) : (frontOf rows first).Nodup :=
  ((columnOrder_spec rows).1.erase first).sublist (List.take_sublist _ _)

theorem not_mem_frontOf (rows : List LinearRow) (first : String) : first ∉ frontOf rows first :=
  fun h => (columnOrder_spec rows).1.not_mem_erase (List.mem_of_mem_take h)

/-- The candidates come first exactly if all that stands in front of the place of the last row is a candidate. -/
theorem candidatesFirst_iff_front (hr : r.unknowns = first :: others) :
    CandidatesFirst (rows ++ [r]) ↔ ∀ w ∈ frontOf rows first, w ∈ candidates (rows ++ [r]) := by
  obtain ⟨back, hback⟩ := columnOrder_eq_append rows hr
  have hcandidates := candidates_concat rows hr
  have hn := (columnOrder_spec (rows ++ [r])).1
  rw [hback] at hn
  unfold CandidatesFirst
  rw [hback]
  refine forall_idxOf_lt_iff hn (by simp [hcandidates]) ?_
  intro v hv
  rw [hcandidates, List.mem_append, List.mem_singleton] at hv
  by_cases hvf : v = first
  · exact .inl hvf
  · exact .inr (mem_frontOf (hv.resolve_right hvf) hvf)

/-- There is room for as many variables in front of the last place as there are candidates before it: nothing
else gets there exactly if they are all different, or if there is nothing else. -/
theorem front_candidates_iff (hr : r.unknowns = first :: others) :
    (∀ w ∈ frontOf rows first, w ∈ candidates (rows ++ [r])) ↔ (candidates (rows ++ [r])).Nodup ∨
      ∀ r' ∈ rows, ∀ v ∈ r'.unknowns, v ∈ candidates (rows ++ [r]) := by
  have hcandidates := candidates_concat rows hr
  have hvariables : ∀ v, v ∈ columnOrder rows ↔ ∃ r' ∈ rows, v ∈ r'.unknowns := (columnOrder_spec rows).2
  rw [hcandidates]
  constructor
  · intro h
    by_cases hlength : (candidates rows).length ≤ ((columnOrder rows).erase first).length
    · left
      have hsub : frontOf rows first ⊆ candidates rows := by
        intro w hw
        have hne : w ≠ first := fun he => not_mem_frontOf rows first (he ▸ hw)
        simpa [hne] using h w hw
      have hperm : (frontOf rows first).Perm (candidates rows) := by
        refine ((nodup_frontOf rows first).subperm hsub).perm_of_length_le ?_
        rw [frontOf, List.length_take, Nat.min_eq_left hlength]
      have hnot : first ∉ candidates rows := fun hf => not_mem_frontOf rows first (hperm.mem_iff.mpr hf)
      exact List.nodup_append.mpr ⟨hperm.nodup_iff.mp (nodup_frontOf rows first), List.nodup_singleton _,
        fun v hv w hw he => hnot (List.mem_singleton.mp hw ▸ he ▸ hv)⟩
    · right
      intro r' hr' v hv
      by_cases hvf : v = first
      · simp [hvf]
      · refine h v ?_
        rw [frontOf, List.take_of_length_le (by omega)]
        exact (List.mem_erase_of_ne hvf).mpr ((hvariables v).mpr ⟨r', hr', hv⟩)
  · rintro (hn | hall) w hw
    · rw [List.nodup_append] at hn
      have hsub : candidates rows ⊆ frontOf rows first := fun v hv =>
        mem_frontOf hv fun he => hn.2.2 v hv first (List.mem_singleton_self _) he
      have hperm : (candidates rows).Perm (frontOf rows first) := by
        refine (hn.1.subperm hsub).perm_of_length_le ?_
        rw [frontOf]
        exact List.length_take_le _ _
      exact List.mem_append_left _ (hperm.mem_iff.mpr hw)
    · obtain ⟨r', hr', hv⟩ := (hvariables w).mp (List.mem_of_mem_erase (List.mem_of_mem_take hw))
      exact hall r' hr' w hv

/-! ## The order of all columns -/

/-- **Every variable of every row has exactly one column.** The candidates come first exactly if no two rows have
the same candidate, or if every variable of the rows before the last one with variables is a candidate. -/
theorem columnOrder_candidates (rows : List LinearRow) :
    (columnOrder rows).Nodup ∧ (∀ v, v ∈ columnOrder rows ↔ ∃ r ∈ rows, v ∈ r.unknowns) ∧
      (CandidatesFirst rows ↔ (candidates rows).Nodup ∨
        ∀ r ∈ (openRows rows).dropLast, ∀ v ∈ r.unknowns, v ∈ candidates rows) := by
  obtain ⟨hn, hmem⟩ := columnOrder_spec rows
  refine ⟨hn, hmem, ?_⟩
  have hfirst : CandidatesFirst rows ↔ CandidatesFirst (openRows rows) := by
    unfold CandidatesFirst
    rw [columnOrder_openRows, candidates_openRows]
  rw [hfirst, ← candidates_openRows]
  rcases List.eq_nil_or_concat (openRows rows) with hnil | ⟨before, r, hlast⟩
  · simp [hnil, CandidatesFirst, candidates]
  · have hopen : r ∈ openRows rows := by
      rw [hlast]
      simp
    obtain ⟨first, others, hr⟩ : ∃ first others, r.unknowns = first :: others :=
      List.exists_cons_of_ne_nil (by simpa using (List.mem_filter.mp hopen).2)
    rw [hlast, List.concat_eq_append, List.dropLast_concat, candidatesFirst_iff_front hr,
      front_candidates_iff hr]

/-- **A repeated candidate moves down**: in the second row `x` leaves the first place and is put at the second
one, behind `z`, which is first in no row. The two rows are then solved for `z`. -/
theorem columnOrder_repeated_candidate :
    let rows : List LinearRow := [⟨["x", "z"], [("x", 1), ("z", 1)], 0⟩, ⟨["x", "z"], [("x", 2), ("z", 2)], 0⟩]
    (∀ r ∈ rows, r.unknowns.Nodup) ∧ columnOrder rows = ["z", "x"] ∧ ¬ CandidatesFirst rows ∧
      solveRows rows = .ok [("z", -.symbol "x")] ∧
      (Substitution.homogeneous [.symbol "x" + .symbol "z", 2 * .symbol "x" + 2 * .symbol "z"]).map (·.pairs) =
        .ok [(.symbol "z", -.symbol "x")] := by
  refine ⟨?_, ?_, ?_, ?_, ?_⟩ <;> decide +kernel

end TensorEquations
