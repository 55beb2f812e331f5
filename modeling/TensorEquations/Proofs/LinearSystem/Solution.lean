import Mathlib
import TensorEquations.LinearSystem.Solution
import TensorEquations.Proofs.LinearSystem.Reduction
import TensorEquations.Proofs.LinearSystem.Row
import TensorEquations.Proofs.Scalar.Simplification

/-!
# Correctness of solving

* `systemPoly` — a row of entries for given columns as a polynomial.
* `columnOrder_spec` — every variable of a system has one column.
* `polySpan`, `linearRank` — the span of polynomials and the rank of their linear parts.
* `PivotRow.rest_spec` — the pair of a pivot row stands for the row.
* `SolvedForm`, `solveRows_ok`, `solveRows_error` — **a system is solved into pairs with the same
  solutions, and is refused exactly if it has none.**
-/

namespace TensorEquations

open MvPolynomial

/-! ## Columns -/

theorem promote_perm (columns : List String) (place : Nat) (name : String) :
    (promote columns place name).Perm (name :: columns.erase name) := by
  unfold promote
  simp only
  exact List.perm_middle.trans ((List.take_append_drop place (columns.erase name)).symm ▸ List.Perm.refl _)

theorem appendNew_spec : ∀ (names : List String) {columns : List String}, columns.Nodup →
    (appendNew columns names).Nodup ∧ ∀ n, n ∈ appendNew columns names ↔ n ∈ columns ∨ n ∈ names
  | [], columns, h => ⟨h, by simp [appendNew]⟩
  | name :: names, columns, h => by
    show (appendNew (if columns.contains name then columns else columns ++ [name]) names).Nodup ∧ _
    split
    · rename_i hc
      obtain ⟨hn, hm⟩ := appendNew_spec names h
      refine ⟨hn, fun n => ?_⟩
      show n ∈ appendNew (if columns.contains name then columns else columns ++ [name]) names ↔ _
      rw [if_pos hc, hm, List.mem_cons]
      have := List.contains_iff_mem.mp hc
      grind
    · rename_i hc
      have hnot : name ∉ columns := fun h => hc (List.contains_iff_mem.mpr h)
      have hnew : (columns ++ [name]).Nodup :=
        List.nodup_append.mpr ⟨h, List.nodup_singleton _, by grind⟩
      obtain ⟨hn, hm⟩ := appendNew_spec names hnew
      refine ⟨hn, fun n => ?_⟩
      show n ∈ appendNew (if columns.contains name then columns else columns ++ [name]) names ↔ _
      rw [if_neg hc, hm, List.mem_append, List.mem_singleton, List.mem_cons, or_assoc]

theorem addColumns_spec {state : List String × Nat} (h : state.1.Nodup) (r : LinearRow) :
    (addColumns state r).1.Nodup ∧
      ∀ n, n ∈ (addColumns state r).1 ↔ n ∈ state.1 ∨ n ∈ r.unknowns := by
  unfold addColumns
  split
  · rename_i hr
    exact ⟨h, by simp [hr]⟩
  · rename_i first others hr
    have hp := promote_perm state.1 state.2 first
    have hnd : (promote state.1 state.2 first).Nodup :=
      hp.nodup_iff.mpr (List.nodup_cons.mpr ⟨h.not_mem_erase, h.erase first⟩)
    obtain ⟨hn, hm⟩ := appendNew_spec others hnd
    refine ⟨hn, fun n => ?_⟩
    rw [hm, hp.mem_iff, List.mem_cons, hr, List.mem_cons]
    by_cases hnf : n = first
    · simp [hnf]
    · rw [List.mem_erase_of_ne hnf]
      tauto

theorem foldl_addColumns_spec : ∀ (rows : List LinearRow) {state : List String × Nat},
    state.1.Nodup → (rows.foldl addColumns state).1.Nodup ∧
      ∀ n, n ∈ (rows.foldl addColumns state).1 ↔ n ∈ state.1 ∨ ∃ r ∈ rows, n ∈ r.unknowns
  | [], state, h => ⟨h, by simp⟩
  | r :: rows, state, h => by
    obtain ⟨hn, hm⟩ := addColumns_spec h r
    obtain ⟨hn', hm'⟩ := foldl_addColumns_spec rows hn
    refine ⟨hn', fun n => ?_⟩
    rw [List.foldl_cons, hm', hm, or_assoc]
    simp

/-- **Every variable of a system has exactly one column.** -/
theorem columnOrder_spec (rows : List LinearRow) :
    (columnOrder rows).Nodup ∧ ∀ n, n ∈ columnOrder rows ↔ ∃ r ∈ rows, n ∈ r.unknowns := by
  have hempty : (([], 0) : List String × Nat).1.Nodup := List.nodup_nil
  obtain ⟨hn, hm⟩ := foldl_addColumns_spec rows hempty
  exact ⟨hn, fun n => by rw [columnOrder, hm]; simp⟩

/-! ## Rows as polynomials -/

/-- The polynomial of entries for the columns and the constant behind them. -/
noncomputable def rowPoly : List String → (ℕ → ℚ) → Poly
  | [], v => C (v 0)
  | name :: names, v => C (v 0) * X name + rowPoly names fun j => v (j + 1)

/-- The polynomial of a row of entries as a linear map. -/
noncomputable def systemPoly (columns : List String) : (ℕ → ℚ) →ₗ[ℚ] Poly where
  toFun := rowPoly columns
  map_add' v w := by
    induction columns generalizing v w with
    | nil => simp [rowPoly]
    | cons name names ih =>
        simp only [rowPoly, Pi.add_apply, C_add]
        rw [show (fun j => v (j + 1) + w (j + 1)) = (fun j => v (j + 1)) + fun j => w (j + 1) from rfl,
          ih]
        ring
  map_smul' c v := by
    induction columns generalizing v with
    | nil => simp [rowPoly, smul_eq_C_mul]
    | cons name names ih =>
        simp only [rowPoly, Pi.smul_apply, smul_eq_mul, C_mul]
        rw [show (fun j => c * v (j + 1)) = c • fun j => v (j + 1) from rfl, ih]
        simp only [RingHom.id_apply, smul_eq_C_mul]
        ring

theorem systemPoly_nil (v : ℕ → ℚ) : systemPoly [] v = C (v 0) := rfl

theorem systemPoly_cons (name : String) (names : List String) (v : ℕ → ℚ) :
    systemPoly (name :: names) v = C (v 0) * X name + systemPoly names fun j => v (j + 1) := rfl

theorem systemPoly_entries_cons (name : String) (names : List String) (c : ℚ) (row : List ℚ) :
    systemPoly (name :: names) (entriesAt (c :: row)) =
      C c * X name + systemPoly names (entriesAt row) := rfl

/-- The variables of a row are those of its nonzero entries. -/
theorem mem_vars_systemPoly {name : String} : ∀ {columns : List String} {v : ℕ → ℚ},
    name ∈ (systemPoly columns v).vars → ∃ k, columns[k]? = some name ∧ v k ≠ 0
  | [], v, h => by simp [systemPoly_nil] at h
  | other :: columns, v, h => by
    rw [systemPoly_cons] at h
    rcases Finset.mem_union.mp (vars_add_subset _ _ h) with h | h
    · have hv : v 0 ≠ 0 := by
        intro h0
        simp [h0] at h
      rcases Finset.mem_union.mp (vars_mul _ _ h) with h | h
      · simp at h
      · rw [vars_X, Finset.mem_singleton] at h
        exact ⟨0, by rw [h]; rfl, hv⟩
    · obtain ⟨k, hk, hv⟩ := mem_vars_systemPoly h
      exact ⟨k + 1, hk, hv⟩

theorem coeff_systemPoly_of_not_mem {name : String} : ∀ {columns : List String} {v : ℕ → ℚ},
    name ∉ columns → coeff (Finsupp.single name 1) (systemPoly columns v) = 0
  | [], v, _ => by
    rw [systemPoly_nil, coeff_C, if_neg (Finsupp.single_ne_zero.mpr one_ne_zero).symm]
  | other :: columns, v, h => by
    rw [List.mem_cons, not_or] at h
    rw [systemPoly_cons, coeff_add, coeff_systemPoly_of_not_mem h.2, coeff_C_mul, coeff_X, if_neg]
    · simp
    · intro he
      exact h.1 (Finsupp.single_left_injective one_ne_zero he).symm

/-- The coefficient of a symbol in a row is the entry in its column. -/
theorem coeff_systemPoly {name : String} : ∀ {columns : List String} {v : ℕ → ℚ} {k : ℕ},
    columns.Nodup → columns[k]? = some name →
    coeff (Finsupp.single name 1) (systemPoly columns v) = v k
  | other :: columns, v, 0, hn, hk => by
    obtain rfl : other = name := by simpa using hk
    rw [systemPoly_cons, coeff_add, coeff_systemPoly_of_not_mem (List.nodup_cons.mp hn).1,
      coeff_C_mul, coeff_X, if_pos rfl, mul_one, add_zero]
  | other :: columns, v, k + 1, hn, hk => by
    have hk' : columns[k]? = some name := hk
    have hne : other ≠ name := by
      rintro rfl
      exact (List.nodup_cons.mp hn).1 (List.mem_of_getElem? hk')
    rw [systemPoly_cons, coeff_add, coeff_systemPoly (List.nodup_cons.mp hn).2 hk', coeff_C_mul,
      coeff_X, if_neg fun he => hne (Finsupp.single_left_injective one_ne_zero he), mul_zero,
      zero_add]

/-! ## The entries of a row -/

theorem LinearRow.coefficient_isExact {r : LinearRow} {p : Poly} (h : r.Denotes p) (name : String) :
    (r.coefficient name).isExact = true := by
  unfold coefficient
  cases hl : r.coefficients.lookup name with
  | none => rfl
  | some c =>
      obtain ⟨l₁, l₂, hs, -⟩ := List.lookup_eq_some_iff.mp hl
      exact h.exact (name, c) (by simp [hs])

theorem sum_lookup : ∀ {cs : List (String × Number)} {columns : List String}, columns.Nodup →
    (cs.map Prod.fst).Nodup → (∀ c ∈ cs, c.1 ∈ columns) →
    (columns.map fun n => C ((cs.lookup n).getD 0).value * X n).sum = coefficientsPoly cs
  | [], columns, _, _, _ => by simp [Number.zero_eq, Number.value]
  | (a, c) :: cs, columns, hn, hk, hm => by
    have ha : cs.lookup a = none := by
      rw [List.lookup_eq_none_iff]
      intro p hp
      have hne : a ≠ p.1 := by
        intro he
        exact (List.nodup_cons.mp hk).1 (List.mem_map.mpr ⟨p, hp, he.symm⟩)
      simpa using hne
    have hsplit : ∀ n ∈ columns, C ((((a, c) :: cs).lookup n).getD 0).value * X n =
        (if n = a then C c.value * X a else 0) + (C ((cs.lookup n).getD 0).value * X n : Poly) := by
      intro n _
      rw [List.lookup_cons]
      by_cases hna : n = a
      · rw [hna, ha]
        simp [Number.zero_eq, Number.value]
      · have hb : (n == a) = false := by simpa using hna
        simp [hb, hna]
    rw [List.map_congr_left hsplit, List.sum_map_add,
      sum_lookup hn (List.nodup_cons.mp hk).2 fun d hd => hm d (List.mem_cons_of_mem _ hd),
      coefficientsPoly_cons, List.sum_map_ite_eq,
      List.count_eq_one_of_mem hn (hm _ List.mem_cons_self)]
    simp

theorem systemPoly_map : ∀ (columns : List String) (g : String → ℚ) (c : ℚ),
    systemPoly columns (entriesAt (columns.map g ++ [c])) =
      (columns.map fun n => C (g n) * X n).sum + C c
  | [], _, c => by
    rw [systemPoly_nil]
    simp [entriesAt]
  | name :: columns, g, c => by
    rw [List.map_cons, List.cons_append, systemPoly_entries_cons, systemPoly_map columns g c,
      List.map_cons, List.sum_cons, add_assoc]

/-- The rationals of the entries of a row. -/
def LinearRow.rationals (columns : List String) (r : LinearRow) : List ℚ :=
  columns.map (fun n => (r.coefficient n).value) ++ [r.constant.value]

theorem LinearRow.systemPoly_rationals {r : LinearRow} {p : Poly} (h : r.Denotes p)
    {columns : List String} (hn : columns.Nodup) (hm : ∀ n ∈ r.unknowns, n ∈ columns) :
    systemPoly columns (entriesAt (r.rationals columns)) = p := by
  rw [rationals, systemPoly_map, ← h.poly_eq]
  congr 1
  refine sum_lookup hn h.nodup fun c hc => hm c.1 ?_
  exact h.unknowns.mem_iff.mpr (List.mem_map_of_mem hc)

theorem lookup_of_mem {α : Type} {name : String} {s : α} : ∀ {pairs : List (String × α)},
    (pairs.map Prod.fst).Nodup → (name, s) ∈ pairs → pairs.lookup name = some s
  | pair :: pairs, hn, hm => by
    rw [List.map_cons, List.nodup_cons] at hn
    rw [List.lookup_cons]
    rcases List.mem_cons.mp hm with rfl | hm
    · simp
    · have hne : name ≠ pair.1 := by
        rintro rfl
        exact hn.1 (List.mem_map.mpr ⟨_, hm, rfl⟩)
      have hb : (name == pair.1) = false := by simpa using hne
      rw [hb]
      exact lookup_of_mem hn.2 hm

/-- The variables of a row are variables of its polynomial. -/
theorem LinearRow.Denotes.mem_vars {r : LinearRow} {p : Poly} (h : r.Denotes p) {n : String}
    (hn : n ∈ r.unknowns) : n ∈ p.vars := by
  have hnodup : r.unknowns.Nodup := h.unknowns.nodup_iff.mpr h.nodup
  obtain ⟨c, hc, rfl⟩ := List.mem_map.mp (h.unknowns.mem_iff.mp hn)
  obtain ⟨k, hk⟩ := List.mem_iff_getElem?.mp hn
  have hentry : entriesAt (r.rationals r.unknowns) k = c.2.value := by
    have hlt : k < r.unknowns.length := (List.getElem?_eq_some_iff.mp hk).1
    rw [entriesAt, rationals, List.getD_eq_getElem?_getD, List.getElem?_append_left (by simpa using hlt),
      List.getElem?_map, hk]
    simp [coefficient, lookup_of_mem h.nodup hc]
  have hcoeff := coeff_systemPoly (v := entriesAt (r.rationals r.unknowns)) hnodup hk
  rw [r.systemPoly_rationals h hnodup fun _ hm => hm, hentry] at hcoeff
  refine (mem_vars_iff_mem_support c.1).mpr ⟨Finsupp.single c.1 1, ?_, ?_⟩
  · rw [mem_support_iff, hcoeff]
    exact h.nonzero c hc
  · simp

/-- The variables of its polynomial are variables of a row. -/
theorem LinearRow.Denotes.mem_unknowns {r : LinearRow} {p : Poly} (h : r.Denotes p) {n : String}
    (hn : n ∈ p.vars) : n ∈ r.unknowns := by
  have hnodup : r.unknowns.Nodup := h.unknowns.nodup_iff.mpr h.nodup
  rw [← r.systemPoly_rationals h hnodup fun _ hm => hm] at hn
  obtain ⟨k, hk, -⟩ := mem_vars_systemPoly hn
  exact List.mem_of_getElem? hk

theorem exists_mem_vars : ∀ {rows : List LinearRow} {ps : List Poly} {n : String},
    List.Forall₂ LinearRow.Denotes rows ps → (∃ r ∈ rows, n ∈ r.unknowns) → ∃ p ∈ ps, n ∈ p.vars
  | [], [], _, _, hn => by simp at hn
  | r :: rows, p :: ps, n, h, hn => by
    obtain ⟨hr, hrows⟩ := List.forall₂_cons.mp h
    obtain ⟨q, hq, hmem⟩ := hn
    rcases List.mem_cons.mp hq with rfl | hq
    · exact ⟨p, List.mem_cons_self, hr.mem_vars hmem⟩
    · obtain ⟨p', hp', hv⟩ := exists_mem_vars hrows ⟨q, hq, hmem⟩
      exact ⟨p', List.mem_cons_of_mem _ hp', hv⟩

theorem mapM_eq_some {α β : Type} {f : α → Option β} {g : α → β} : ∀ {xs : List α},
    (∀ x ∈ xs, f x = some (g x)) → xs.mapM f = some (xs.map g)
  | [], _ => rfl
  | x :: xs, h => by
    rw [List.mapM_cons, h x List.mem_cons_self,
      mapM_eq_some fun y hy => h y (List.mem_cons_of_mem _ hy)]
    rfl

theorem Number.rational?_eq {c : Number} (h : c.isExact = true) : c.rational? = some c.value := by
  rw [Number.eq_exact_of_isExact h]
  rfl

theorem LinearRow.mapM_rational? {r : LinearRow} {p : Poly} (h : r.Denotes p)
    (columns : List String) :
    (r.entries columns).mapM Number.rational? = some (r.rationals columns) := by
  rw [mapM_eq_some (g := Number.value), entries, rationals]
  · simp
  · intro c hc
    rcases List.mem_append.mp hc with hc | hc
    · obtain ⟨n, -, rfl⟩ := List.mem_map.mp hc
      exact Number.rational?_eq (r.coefficient_isExact h n)
    · rw [List.mem_singleton.mp hc]
      exact Number.rational?_eq h.exact_constant

/-! ## Pivot rows -/

/-- What stands behind a pivot, and the constant. -/
theorem systemPoly_pivot {name : String} : ∀ {columns : List String} {es : List ℚ} {k : ℕ},
    es.length = columns.length + 1 → columns[k]? = some name → (∀ j < k, entriesAt es j = 0) →
    entriesAt es k = 1 → systemPoly columns (entriesAt es) =
      X name + ((((columns.zip es).drop (k + 1)).map fun c => C c.2 * X c.1).sum +
        C (es.getD columns.length 0))
  | other :: columns, c :: es, 0, hl, hk, _, h₁ => by
    obtain rfl : other = name := by simpa using hk
    have hc : c = 1 := h₁
    have hz : ∀ (columns : List String) (es : List ℚ), es.length = columns.length + 1 →
        systemPoly columns (entriesAt es) =
          ((columns.zip es).map fun c => C c.2 * X c.1).sum + C (es.getD columns.length 0) := by
      intro columns
      induction columns with
      | nil =>
          intro es _
          simp [systemPoly_nil, entriesAt]
      | cons n columns ih =>
          intro es hl
          cases es with
          | nil => simp at hl
          | cons d es =>
              rw [systemPoly_entries_cons, ih es (by simpa using hl)]
              simp [add_assoc]
    rw [systemPoly_entries_cons, hz columns es (by simpa using hl), hc, C_1, one_mul]
    rfl
  | other :: columns, c :: es, k + 1, hl, hk, h₀, h₁ => by
    have hc : c = 0 := h₀ 0 (Nat.succ_pos k)
    have hk' : columns[k]? = some name := hk
    have ih := systemPoly_pivot (by simpa using hl) hk'
      (fun j hj => h₀ (j + 1) (Nat.succ_lt_succ hj)) h₁
    rw [systemPoly_entries_cons, hc, C_0, zero_mul, zero_add]
    exact ih

namespace PivotRow

theorem rest_isExpanded (columns : List String) (p : PivotRow) :
    IsExpanded (p.rest columns).terms := by
  refine Scalar.sum_isExpanded fun x hx => ?_
  rcases List.mem_cons.mp hx with rfl | hx
  · exact Scalar.rational_isExpanded _
  · obtain ⟨c, -, rfl⟩ := List.mem_map.mp hx
    exact ((Scalar.rational_isTerm _).mul (Scalar.symbol_isTerm _)).expanded

theorem rest_denotes (columns : List String) (p : PivotRow) : (p.rest columns).Denotes
    (-((((columns.zip p.entries).drop (p.column + 1)).map fun c => C c.2 * X c.1).sum +
      C (p.entries.getD columns.length 0))) := by
  have hx := rest_isExpanded columns p
  have hterms : ∀ c : String × ℚ, (Scalar.rational (-c.2) * Scalar.symbol c.1).Denotes (-(C c.2 * X c.1)) := by
    intro c
    have := (Scalar.rational_denotes (-c.2)).mul (Scalar.symbol_denotes c.1)
    rwa [C_neg, neg_mul] at this
  have hall : ∀ x ∈ Scalar.rational (-(p.entries.getD columns.length 0)) ::
      ((columns.zip p.entries).drop (p.column + 1)).map
        (fun c => Scalar.rational (-c.2) * Scalar.symbol c.1), x.isPolynomial = true := by
    intro x hx
    rcases List.mem_cons.mp hx with rfl | hx
    · exact (Scalar.rational_denotes _).isPolynomial
    · obtain ⟨c, -, rfl⟩ := List.mem_map.mp hx
      exact (hterms c).isPolynomial
  have hsum := Scalar.sum_denotes hall
  have hlater : (((columns.zip p.entries).drop (p.column + 1)).map
      (Scalar.poly ∘ fun c => Scalar.rational (-c.2) * Scalar.symbol c.1)) =
      (((columns.zip p.entries).drop (p.column + 1)).map fun c => C c.2 * X c.1).map Neg.neg := by
    rw [List.map_map]
    exact List.map_congr_left fun c _ => (hterms c).poly_eq
  refine ⟨hsum.isPolynomial, hsum.poly_eq.trans ?_⟩
  rw [List.map_cons, List.sum_cons, List.map_map, (Scalar.rational_denotes _).poly_eq, hlater,
    ← List.sum_neg, C_neg, neg_add_rev]

theorem totalDegree_rest (columns : List String) (p : PivotRow) :
    (p.rest columns).poly.totalDegree ≤ 1 := by
  have hterms : ∀ cs : List (String × ℚ), (cs.map fun c => C c.2 * X c.1 : List Poly).sum ∈
      restrictTotalDegree String ℚ 1 := by
    intro cs
    refine list_sum_mem fun q hq => ?_
    obtain ⟨c, -, rfl⟩ := List.mem_map.mp hq
    rw [mem_restrictTotalDegree]
    refine (totalDegree_mul _ _).trans ?_
    rw [totalDegree_C, totalDegree_X]
  rw [(rest_denotes columns p).poly_eq, ← mem_restrictTotalDegree]
  refine Submodule.neg_mem _ (Submodule.add_mem _ (hterms _) ?_)
  rw [mem_restrictTotalDegree, totalDegree_C]
  exact Nat.zero_le 1

/-- **The pair of a pivot row stands for the row.** -/
theorem rest_spec {columns : List String} {p : PivotRow} {name : String}
    (hp : p.IsPivot (columns.length + 1)) (hn : columns[p.column]? = some name) :
    systemPoly columns (entriesAt p.entries) = X name - (p.rest columns).poly := by
  rw [systemPoly_pivot hp.length_eq hn hp.before hp.pivot, (rest_denotes columns p).poly_eq,
    sub_neg_eq_add]

theorem systemPoly_single {name : String} : ∀ {columns : List String} {k : ℕ},
    columns[k]? = some name → systemPoly columns (Pi.single k 1) = X name
  | other :: columns, 0, hk => by
    obtain rfl : other = name := by simpa using hk
    have hz : (fun j => (Pi.single 0 1 : ℕ → ℚ) (j + 1)) = 0 := by
      funext j
      simp
    rw [systemPoly_cons, hz, map_zero]
    simp
  | other :: columns, k + 1, hk => by
    have hk' : columns[k]? = some name := hk
    have hs : (fun j => (Pi.single (k + 1) 1 : ℕ → ℚ) (j + 1)) = Pi.single k 1 := by
      funext j
      simp [Pi.single_apply]
    rw [systemPoly_cons, hs, systemPoly_single hk']
    simp

/-- A symbol in the right side of a pair has a nonzero entry behind the pivot. -/
theorem mem_symbols_rest {columns : List String} {p : PivotRow} {name other : String}
    (hp : p.IsPivot (columns.length + 1)) (hn : columns[p.column]? = some name)
    (ho : other ∈ (p.rest columns).symbols) :
    ∃ k, columns[k]? = some other ∧ k ≠ p.column ∧ entriesAt p.entries k ≠ 0 := by
  have hv : other ∈ (p.rest columns).poly.vars := (rest_isExpanded columns p).mem_symbols ho
  have hrest : (p.rest columns).poly =
      systemPoly columns (Pi.single p.column 1 - entriesAt p.entries) := by
    rw [map_sub, systemPoly_single hn, rest_spec hp hn, sub_sub_cancel]
  rw [hrest] at hv
  obtain ⟨k, hk, hne⟩ := mem_vars_systemPoly hv
  have hkp : k ≠ p.column := by
    rintro rfl
    simp [hp.pivot] at hne
  refine ⟨k, hk, hkp, ?_⟩
  simpa [Pi.single_eq_of_ne hkp] using hne

end PivotRow

/-! ## Spans of polynomials -/

/-- The span of a list of polynomials. -/
noncomputable def polySpan (ps : List Poly) : Submodule ℚ Poly := Submodule.span ℚ {p | p ∈ ps}

/-- The rank of the linear parts of polynomials. -/
noncomputable def linearRank (ps : List Poly) : ℕ :=
  Module.finrank ℚ (Submodule.span ℚ (homogeneousComponent 1 '' {p : Poly | p ∈ ps}))

theorem polySpan_le {ps : List Poly} {S : Submodule ℚ Poly} (h : ∀ p ∈ ps, p ∈ S) :
    polySpan ps ≤ S := Submodule.span_le.mpr h

theorem mem_polySpan {ps : List Poly} {p : Poly} (h : p ∈ ps) : p ∈ polySpan ps :=
  Submodule.subset_span h

/-- What polynomials vanish at depends on their span only. -/
theorem forall_eval_iff_span {ρ : String → ℚ} {ps : List Poly} :
    (∀ p ∈ ps, eval ρ p = 0) ↔ ∀ p ∈ polySpan ps, eval ρ p = 0 := by
  constructor
  · intro h p hp
    have hle : polySpan ps ≤ LinearMap.ker (aeval ρ : Poly →ₐ[ℚ] ℚ).toLinearMap := by
      refine polySpan_le fun q hq => ?_
      rw [LinearMap.mem_ker, AlgHom.toLinearMap_apply, aeval_eq_eval]
      exact h q hq
    have := hle hp
    rwa [LinearMap.mem_ker, AlgHom.toLinearMap_apply, aeval_eq_eval] at this
  · exact fun h p hp => h p (mem_polySpan hp)

theorem linearRank_congr {ps qs : List Poly} (h : polySpan ps = polySpan qs) :
    linearRank ps = linearRank qs := by
  unfold linearRank
  rw [← Submodule.map_span, ← Submodule.map_span]
  exact congrArg (fun S => Module.finrank ℚ (Submodule.map (homogeneousComponent 1) S)) h

theorem polySpan_map (columns : List String) (rows : List (List ℚ)) :
    polySpan (rows.map fun row => systemPoly columns (entriesAt row)) =
      Submodule.map (systemPoly columns) (rowSpan rows) := by
  rw [polySpan, rowSpan, Submodule.map_span]
  congr 1
  ext p
  constructor
  · intro hp
    obtain ⟨row, hrow, rfl⟩ := List.mem_map.mp hp
    exact ⟨entriesAt row, ⟨row, hrow, rfl⟩, rfl⟩
  · rintro ⟨_, ⟨row, hrow, rfl⟩, rfl⟩
    exact List.mem_map.mpr ⟨row, hrow, rfl⟩

/-! ## The rank of reduced rows -/

/-- The polynomials of pivot rows. -/
noncomputable def pivotPolys (columns : List String) (ps : List PivotRow) : List Poly :=
  ps.map fun p => systemPoly columns (entriesAt p.entries)

theorem PivotRow.IsReduced.entry_eq {width : ℕ} {ps : List PivotRow} (h : IsReduced width ps)
    (i j : Fin ps.length) : entriesAt ps[j].entries ps[i].column = if j = i then 1 else 0 := by
  split
  · rename_i hij
    rw [hij]
    exact (h.pivots _ (List.getElem_mem _)).pivot
  · rename_i hij
    refine h.cleared _ (List.getElem_mem _) _ (List.getElem_mem _) fun he => hij ?_
    have hnodup : (ps.map PivotRow.column).Nodup := h.ascending.imp fun hlt => hlt.ne
    have he' : (ps.map PivotRow.column)[j.val] = (ps.map PivotRow.column)[i.val] := by
      simpa using he
    exact Fin.ext (hnodup.getElem_inj_iff.mp he')

/-- Reduced rows without a pivot behind the columns have full rank. -/
theorem linearRank_pivotPolys {columns : List String} {ps : List PivotRow} (hc : columns.Nodup)
    (h : PivotRow.IsReduced (columns.length + 1) ps)
    (hlt : ∀ p ∈ ps, p.column < columns.length) : linearRank (pivotPolys columns ps) = ps.length := by
  let b : Fin ps.length → Poly := fun i =>
    homogeneousComponent 1 (systemPoly columns (entriesAt ps[i].entries))
  have hrange : homogeneousComponent 1 '' {p : Poly | p ∈ pivotPolys columns ps} = Set.range b := by
    ext q
    constructor
    · rintro ⟨_, hmem, rfl⟩
      obtain ⟨p, hp, rfl⟩ := List.mem_map.mp hmem
      obtain ⟨i, hi, rfl⟩ := List.mem_iff_getElem.mp hp
      exact ⟨⟨i, hi⟩, rfl⟩
    · rintro ⟨i, rfl⟩
      exact ⟨_, List.mem_map_of_mem (List.getElem_mem i.isLt), rfl⟩
  let name : Fin ps.length → String := fun i => columns.getD ps[i].column ""
  have hname : ∀ i, columns[ps[i].column]? = some (name i) := fun i => by
    have hi := hlt _ (List.getElem_mem i.isLt)
    show columns[ps[i.val].column]? = some (columns.getD ps[i.val].column "")
    rw [List.getD_eq_getElem?_getD, List.getElem?_eq_getElem hi]
    rfl
  have hcoeff : ∀ i j, coeff (Finsupp.single (name i) 1) (b j) = if j = i then 1 else 0 := by
    intro i j
    rw [coeff_homogeneousComponent, if_pos (Finsupp.degree_single _ _), coeff_systemPoly hc (hname i)]
    exact h.entry_eq i j
  have hind : LinearIndependent ℚ b := by
    rw [Fintype.linearIndependent_iff]
    intro g hg i
    have := congrArg (coeff (Finsupp.single (name i) 1)) hg
    rw [coeff_sum, coeff_zero, Finset.sum_eq_single i] at this
    · rwa [coeff_smul, hcoeff, if_pos rfl, smul_eq_mul, mul_one] at this
    · intro j _ hj
      rw [coeff_smul, hcoeff, if_neg hj, smul_zero]
    · intro hi
      exact absurd (Finset.mem_univ i) hi
  rw [linearRank, hrange, finrank_span_eq_card hind, Fintype.card_fin]

/-! ## Solved form -/

/-- Pairs in solved form with the solutions of a system, in the variables of the system. -/
structure SolvedForm (ps : List Poly) (pairs : List (String × Scalar)) : Prop where
  distinct : (pairs.map Prod.fst).Nodup
  solved : ∀ pair ∈ pairs, ∀ other ∈ pairs, pair.1 ∉ other.2.symbols
  isPolynomial : ∀ pair ∈ pairs, pair.2.isPolynomial = true
  linear : ∀ pair ∈ pairs, pair.2.poly.totalDegree ≤ 1
  rank : pairs.length = linearRank ps
  solutions : ∀ ρ : String → ℚ,
    (∀ p ∈ ps, eval ρ p = 0) ↔ ∀ pair ∈ pairs, ρ pair.1 = pair.2.valueAt ρ
  left : ∀ pair ∈ pairs, ∃ p ∈ ps, pair.1 ∈ p.vars
  right : ∀ pair ∈ pairs, ∀ name ∈ pair.2.symbols, ∃ p ∈ ps, name ∈ p.vars

theorem pairsFrom_ok {columns : List String} : ∀ {ps : List PivotRow} {place : Nat}
    {pairs : List (String × Scalar)}, pairsFrom columns place ps = .ok pairs →
    (∀ p ∈ ps, p.column < columns.length) ∧
      pairs = ps.map fun p => (columns.getD p.column "", p.rest columns)
  | [], _, _, h => by
    cases h
    exact ⟨fun _ hp => (nomatch hp), rfl⟩
  | p :: ps, place, pairs, h => by
    rw [pairsFrom] at h
    cases hp : p.pair columns place with
    | error e =>
        rw [hp] at h
        cases h
    | ok pair =>
        rw [hp] at h
        cases hr : pairsFrom columns (place + 1) ps with
        | error e =>
            rw [hr] at h
            cases h
        | ok rest =>
            rw [hr] at h
            cases h
            obtain ⟨hlt, rfl⟩ := pairsFrom_ok hr
            unfold PivotRow.pair at hp
            split at hp
            · rename_i name hn
              cases hp
              obtain ⟨hc, -⟩ := List.getElem?_eq_some_iff.mp hn
              refine ⟨?_, by simp [hn]⟩
              intro q hq
              rcases List.mem_cons.mp hq with rfl | hq
              · exact hc
              · exact hlt q hq
            · cases hp

theorem pairsFrom_error {columns : List String} : ∀ {ps : List PivotRow} {place : Nat}
    {e : SystemError}, pairsFrom columns place ps = .error e →
    (∃ p ∈ ps, columns.length ≤ p.column) ∧ ∃ row value, e = .inconsistent row value
  | p :: ps, place, e, h => by
    rw [pairsFrom] at h
    cases hp : p.pair columns place with
    | error e' =>
        rw [hp] at h
        cases h
        unfold PivotRow.pair at hp
        split at hp
        · cases hp
        · rename_i hn
          cases hp
          exact ⟨⟨p, List.mem_cons_self, List.getElem?_eq_none_iff.mp hn⟩, _, _, rfl⟩
    | ok pair =>
        rw [hp] at h
        cases hr : pairsFrom columns (place + 1) ps with
        | error e' =>
            rw [hr] at h
            cases h
            obtain ⟨⟨q, hq, hc⟩, he⟩ := pairsFrom_error hr
            exact ⟨⟨q, List.mem_cons_of_mem _ hq, hc⟩, he⟩
        | ok rest =>
            rw [hr] at h
            cases h

theorem map_systemPoly_rationals {columns : List String} (hn : columns.Nodup) :
    ∀ {rows : List LinearRow} {ps : List Poly}, List.Forall₂ LinearRow.Denotes rows ps →
    (∀ r ∈ rows, ∀ n ∈ r.unknowns, n ∈ columns) →
    (rows.map (·.rationals columns)).map (fun row => systemPoly columns (entriesAt row)) = ps
  | [], [], _, _ => rfl
  | r :: rows, p :: ps, h, hm => by
    obtain ⟨hr, hrows⟩ := List.forall₂_cons.mp h
    rw [List.map_cons, List.map_cons, r.systemPoly_rationals hr hn (hm r List.mem_cons_self),
      map_systemPoly_rationals hn hrows fun q hq => hm q (List.mem_cons_of_mem _ hq)]

/-- Pivots in the columns give pairs. -/
theorem pairsFrom_of_lt {columns : List String} {ps : List PivotRow}
    (h : ∀ p ∈ ps, p.column < columns.length) (place : Nat) :
    pairsFrom columns place ps = .ok (ps.map fun p => (columns.getD p.column "", p.rest columns)) := by
  cases hp : pairsFrom columns place ps with
  | error e =>
      obtain ⟨⟨p, hmem, hge⟩, -⟩ := pairsFrom_error hp
      exact absurd (h p hmem) (not_lt.mpr hge)
  | ok pairs => rw [(pairsFrom_ok hp).2]

/-- The rows of a system are solved as rows of rationals. -/
theorem solveRows_rationals {rows : List LinearRow} {ps : List Poly}
    (h : List.Forall₂ LinearRow.Denotes rows ps) :
    solveRows rows = pairsFrom (columnOrder rows) 0
      (PivotRow.reduce (rows.map (·.rationals (columnOrder rows)))) := by
  have hrationals : (rows.map (·.entries (columnOrder rows))).mapM
      (fun row => row.mapM Number.rational?) = some (rows.map (·.rationals (columnOrder rows))) := by
    rw [List.mapM_map]
    refine mapM_eq_some fun r hr => ?_
    obtain ⟨i, hi, rfl⟩ := List.mem_iff_getElem.mp hr
    exact LinearRow.mapM_rational? ((List.forall₂_iff_get.mp h).2 i hi (h.length_eq ▸ hi)) _
  unfold solveRows
  simp only [hrationals]

/-- The rows of a system are reduced over the rationals. -/
theorem solveRows_eq {rows : List LinearRow} {ps : List Poly}
    (h : List.Forall₂ LinearRow.Denotes rows ps) :
    ∃ pivots, PivotRow.IsReduced ((columnOrder rows).length + 1) pivots ∧
      polySpan (pivotPolys (columnOrder rows) pivots) = polySpan ps ∧
      solveRows rows = pairsFrom (columnOrder rows) 0 pivots := by
  obtain ⟨hn, hcolumns⟩ := columnOrder_spec rows
  have hm : ∀ r ∈ rows, ∀ n ∈ r.unknowns, n ∈ columnOrder rows :=
    fun r hr n hmem => (hcolumns n).mpr ⟨r, hr, hmem⟩
  have hlength : ∀ row ∈ rows.map (·.rationals (columnOrder rows)),
      row.length = (columnOrder rows).length + 1 := by
    intro row hrow
    obtain ⟨r, -, rfl⟩ := List.mem_map.mp hrow
    simp [LinearRow.rationals]
  obtain ⟨hreduced, hspan⟩ := PivotRow.reduce_spec hlength
  refine ⟨_, hreduced, ?_, solveRows_rationals h⟩
  have hpivots : pivotPolys (columnOrder rows)
      (PivotRow.reduce (rows.map (·.rationals (columnOrder rows)))) =
      ((PivotRow.reduce (rows.map (·.rationals (columnOrder rows)))).map PivotRow.entries).map
        fun row => systemPoly (columnOrder rows) (entriesAt row) := by
    rw [pivotPolys, List.map_map]
    rfl
  rw [hpivots, polySpan_map, hspan, ← polySpan_map, map_systemPoly_rationals hn h hm]

/-- The right sides of the pairs of a system are expanded. -/
theorem solveRows_isExpanded {rows : List LinearRow} {ps : List Poly} {pairs : List (String × Scalar)}
    (h : List.Forall₂ LinearRow.Denotes rows ps) (hp : solveRows rows = .ok pairs) :
    ∀ pair ∈ pairs, IsExpanded pair.2.terms := by
  rw [solveRows_rationals h] at hp
  obtain ⟨-, rfl⟩ := pairsFrom_ok hp
  intro pair hpair
  obtain ⟨p, -, rfl⟩ := List.mem_map.mp hpair
  exact PivotRow.rest_isExpanded _ p

/-- **The pairs of a system are in solved form and have its solutions.** -/
theorem solveRows_ok {rows : List LinearRow} {ps : List Poly} {pairs : List (String × Scalar)}
    (h : List.Forall₂ LinearRow.Denotes rows ps) (hp : solveRows rows = .ok pairs) :
    SolvedForm ps pairs := by
  obtain ⟨hn, hmem⟩ := columnOrder_spec rows
  obtain ⟨pivots, hr, hspan, hsolve⟩ := solveRows_eq h
  rw [hsolve] at hp
  obtain ⟨hlt, rfl⟩ := pairsFrom_ok hp
  have hvars : ∀ n ∈ columnOrder rows, ∃ p ∈ ps, n ∈ p.vars :=
    fun n hn => exists_mem_vars h ((hmem n).mp hn)
  generalize columnOrder rows = columns at hn hr hspan hlt hvars
  have hname : ∀ p ∈ pivots, columns[p.column]? = some (columns.getD p.column "") := by
    intro p hp
    rw [List.getD_eq_getElem?_getD, List.getElem?_eq_getElem (hlt p hp)]
    rfl
  have hinj : ∀ {j k : ℕ} {name : String}, columns[j]? = some name → columns[k]? = some name →
      j = k := by
    intro j k name hj hk
    obtain ⟨hj', rfl⟩ := List.getElem?_eq_some_iff.mp hj
    obtain ⟨hk', he⟩ := List.getElem?_eq_some_iff.mp hk
    exact hn.getElem_inj_iff.mp he.symm
  refine ⟨?_, ?_, ?_, ?_, ?_, ?_, ?_, ?_⟩
  · have hcolumns : (pivots.map PivotRow.column).Nodup := hr.ascending.imp fun hlt => hlt.ne
    rw [List.map_map, show (Prod.fst ∘ fun p : PivotRow => (columns.getD p.column "", p.rest columns)) =
      (fun k => columns.getD k "") ∘ PivotRow.column from rfl, ← List.map_map]
    refine hcolumns.map_on fun j hj k hk he => ?_
    obtain ⟨p, hp, rfl⟩ := List.mem_map.mp hj
    obtain ⟨q, hq, rfl⟩ := List.mem_map.mp hk
    exact hinj (hname p hp) (he ▸ hname q hq)
  · intro pair hpair other hother hmem
    obtain ⟨p, hp, rfl⟩ := List.mem_map.mp hpair
    obtain ⟨q, hq, rfl⟩ := List.mem_map.mp hother
    obtain ⟨k, hk, hkq, hne⟩ := PivotRow.mem_symbols_rest (hr.pivots q hq) (hname q hq) hmem
    obtain rfl : k = p.column := hinj hk (hname p hp)
    exact hne (hr.cleared q hq p hp hkq.symm)
  · intro pair hpair
    obtain ⟨p, -, rfl⟩ := List.mem_map.mp hpair
    exact (PivotRow.rest_denotes columns p).isPolynomial
  · intro pair hpair
    obtain ⟨p, -, rfl⟩ := List.mem_map.mp hpair
    exact PivotRow.totalDegree_rest columns p
  · rw [List.length_map, ← linearRank_pivotPolys hn hr hlt, linearRank_congr hspan]
  · intro ρ
    rw [forall_eval_iff_span, ← hspan, ← forall_eval_iff_span, pivotPolys]
    simp only [List.forall_mem_map]
    refine forall₂_congr fun p hp => ?_
    rw [PivotRow.rest_spec (hr.pivots p hp) (hname p hp), map_sub, eval_X, sub_eq_zero]
    rfl
  · intro pair hpair
    obtain ⟨p, hp, rfl⟩ := List.mem_map.mp hpair
    exact hvars _ (List.mem_of_getElem? (hname p hp))
  · intro pair hpair name hmem
    obtain ⟨p, hp, rfl⟩ := List.mem_map.mp hpair
    obtain ⟨k, hk, -, -⟩ := PivotRow.mem_symbols_rest (hr.pivots p hp) (hname p hp) hmem
    exact hvars _ (List.mem_of_getElem? hk)

theorem systemPoly_of_zero : ∀ {columns : List String} {v : ℕ → ℚ},
    (∀ j < columns.length, v j = 0) → systemPoly columns v = C (v columns.length)
  | [], _, _ => rfl
  | name :: columns, v, h => by
    rw [systemPoly_cons, h 0 (Nat.succ_pos _), C_0, zero_mul, zero_add]
    exact systemPoly_of_zero fun j hj => h (j + 1) (Nat.succ_lt_succ hj)

/-- **A system that is refused has no solution.** -/
theorem solveRows_error {rows : List LinearRow} {ps : List Poly} {e : SystemError}
    (h : List.Forall₂ LinearRow.Denotes rows ps) (he : solveRows rows = .error e) :
    (∃ row value, e = .inconsistent row value) ∧ ∀ ρ : String → ℚ, ¬ ∀ p ∈ ps, eval ρ p = 0 := by
  obtain ⟨pivots, hr, hspan, hsolve⟩ := solveRows_eq h
  rw [hsolve] at he
  obtain ⟨⟨p, hp, hc⟩, hinconsistent⟩ := pairsFrom_error he
  refine ⟨hinconsistent, fun ρ hρ => ?_⟩
  have hpivot := hr.pivots p hp
  have hcolumn : p.column = (columnOrder rows).length := by
    have := hpivot.column_lt
    omega
  have hone : systemPoly (columnOrder rows) (entriesAt p.entries) = C 1 := by
    rw [systemPoly_of_zero fun j hj => hpivot.before j (hcolumn ▸ hj), ← hcolumn, hpivot.pivot]
  have hmem : C 1 ∈ polySpan ps := by
    rw [← hspan, ← hone]
    exact mem_polySpan (List.mem_map.mpr ⟨p, hp, rfl⟩)
  have := forall_eval_iff_span.mp hρ _ hmem
  rw [eval_C] at this
  exact one_ne_zero this

end TensorEquations
