import TensorEquations.Proofs.LinearSystem.Reduced

/-!
# The row of a polynomial

`LinearRow.Denotes` says that a row and a polynomial have one value. Here a row is read off the polynomial:
its entries are the coefficients and its variables have one order.

* `sortBy_names` — names are sorted as by an insertion sort.
* `LinearRow.arrange_ascending` — the arranged names ascend, the preferred one aside.
* `LinearRow.Denotes.coefficient_eq`, `LinearRow.Denotes.constant_eq`, `LinearRow.Denotes.mem_unknowns_iff` —
  the entries of a row are the coefficients of its polynomial.
* `LinearRow.IsRowOf`, `LinearRow.ofScalar_isRowOf` — **the polynomials of degree at most one have rows, and the
  row is the one of the coefficients, with a preferred variable in front.**
-/

namespace TensorEquations

open MvPolynomial

/-! ## Order -/

theorem insertBy_name (x : String) : ∀ ys : List String,
    insertBy (fun a b => decide (a < b)) x ys = ys.orderedInsert (· ≤ ·) x
  | [] => rfl
  | y :: ys => by
    unfold insertBy
    rw [List.orderedInsert_cons]
    by_cases h : y < x
    · rw [if_pos (by simpa using h), if_neg (not_le.mpr h), insertBy_name x ys]
    · rw [if_neg (by simpa using h), if_pos (not_lt.mp h)]

theorem sortBy_names : ∀ names : List String,
    sortBy (fun a b => decide (a < b)) names = names.insertionSort (· ≤ ·)
  | [] => rfl
  | name :: names => by
    rw [List.insertionSort_cons, ← sortBy_names names, ← insertBy_name]
    rfl

namespace LinearRow

theorem sorted_ascending {names : List String} (h : names.Nodup) :
    (sortBy (fun a b => decide (a < b)) names).Pairwise (· < ·) := by
  have hle := List.pairwise_insertionSort (· ≤ ·) names
  have hne := (sortBy_perm (fun a b => decide (a < b)) names).nodup_iff.mpr h
  rw [sortBy_names] at hne ⊢
  exact hle.imp₂ (fun _ _ hle hne => lt_of_le_of_ne hle hne) hne

/-- Arranged names ascend, the preferred one aside. -/
theorem arrange_ascending {names : List String} (h : names.Nodup) (preferred : Option String) :
    ((arrange names preferred).filter fun n => some n ≠ preferred).Pairwise (· < ·) := by
  have hsorted := sorted_ascending h
  unfold arrange
  simp only
  split
  · rename_i name
    split
    · rw [List.filter_cons, if_neg (by simp)]
      exact (hsorted.filter _).filter _
    · exact hsorted.filter _
  · exact hsorted.filter _

/-! ## Entries -/

variable {r : LinearRow} {p : Poly}

/-- A row as the sum over its variables. -/
theorem Denotes.sum_unknowns (h : r.Denotes p) :
    (r.unknowns.map fun n => C (r.coefficient n).value * X n).sum + C r.constant.value = p := by
  have hnodup : r.unknowns.Nodup := h.unknowns.nodup_iff.mpr h.nodup
  rw [← systemPoly_map]
  exact systemPoly_rationals h hnodup fun _ hn => hn

/-- The coefficients of a row are those of its polynomial. -/
theorem Denotes.coefficient_eq (h : r.Denotes p) (n : String) :
    r.coefficient n = .exact (p.coeff (Finsupp.single n 1)) := by
  -- a first column of its own for the name, whether or not it is a variable of the row
  have hnodup : r.unknowns.Nodup := h.unknowns.nodup_iff.mpr h.nodup
  have hcolumns : (n :: r.unknowns.erase n).Nodup :=
    List.nodup_cons.mpr ⟨hnodup.not_mem_erase, hnodup.erase n⟩
  have hmem : ∀ m ∈ r.unknowns, m ∈ n :: r.unknowns.erase n := by
    intro m hm
    by_cases hmn : m = n
    · exact List.mem_cons.mpr (.inl hmn)
    · exact List.mem_cons_of_mem _ ((List.mem_erase_of_ne hmn).mpr hm)
  have hcoeff := coeff_systemPoly (v := entriesAt (r.rationals (n :: r.unknowns.erase n))) hcolumns
    (show (n :: r.unknowns.erase n)[0]? = some n from rfl)
  rw [systemPoly_rationals h hcolumns hmem] at hcoeff
  rw [hcoeff, Number.eq_exact_of_isExact (coefficient_isExact h n)]
  rfl

/-- The variables of a row are those with a coefficient. -/
theorem Denotes.mem_unknowns_iff (h : r.Denotes p) (n : String) :
    n ∈ r.unknowns ↔ p.coeff (Finsupp.single n 1) ≠ 0 := by
  refine ⟨fun hn => ?_, fun hn => h.mem_unknowns ?_⟩
  · obtain ⟨c, hc, rfl⟩ := List.mem_map.mp (h.unknowns.mem_iff.mp hn)
    have hlookup : r.coefficient c.1 = c.2 := by
      rw [coefficient, lookup_of_mem h.nodup hc]
      rfl
    have hvalue : c.2.value = p.coeff (Finsupp.single c.1 1) := by
      rw [← hlookup, h.coefficient_eq]
      rfl
    exact hvalue ▸ h.nonzero c hc
  · by_contra hv
    exact hn (coeff_single_of_not_mem hv)

theorem constantCoeff_coefficientsPoly : ∀ cs : List (String × Number),
    constantCoeff (coefficientsPoly cs) = 0
  | [] => map_zero _
  | c :: cs => by
    rw [coefficientsPoly_cons, map_add, map_mul, constantCoeff_X, mul_zero, zero_add,
      constantCoeff_coefficientsPoly cs]

theorem Denotes.constant_eq (h : r.Denotes p) : r.constant = .exact (p.coeff 0) := by
  rw [Number.eq_exact_of_isExact h.exact_constant, ← constantCoeff_eq, ← h.poly_eq, map_add,
    constantCoeff_coefficientsPoly, constantCoeff_C, zero_add]

/-! ## The row -/

/-- The row of a polynomial: its coefficients, its constant, and the variables with a nonzero coefficient in
ascending order, a preferred one in front. -/
structure IsRowOf (p : Poly) (preferred : Option String) (r : LinearRow) : Prop where
  coefficient : ∀ n, r.coefficient n = .exact (p.coeff (Finsupp.single n 1))
  constant : r.constant = .exact (p.coeff 0)
  sum : (r.unknowns.map fun n => C (r.coefficient n).value * X n).sum + C r.constant.value = p
  entries : r.unknowns.Perm (r.coefficients.map Prod.fst)
  mem_unknowns : ∀ n, n ∈ r.unknowns ↔ p.coeff (Finsupp.single n 1) ≠ 0
  nodup : r.unknowns.Nodup
  ascending : (r.unknowns.filter fun n => some n ≠ preferred).Pairwise (· < ·)
  preferred_first : ∀ n ∈ preferred, p.coeff (Finsupp.single n 1) ≠ 0 → r.unknowns.head? = some n

/-- A row of a scalar that stands for a polynomial is the row of the polynomial. -/
theorem Denotes.isRowOf {s : Scalar} {preferred : Option String} (h : r.Denotes p)
    (hr : ofScalar s preferred = .ok r) : r.IsRowOf p preferred := by
  refine ⟨h.coefficient_eq, h.constant_eq, h.sum_unknowns, h.unknowns, h.mem_unknowns_iff,
    h.unknowns.nodup_iff.mpr h.nodup, ?_, ?_⟩
  · rw [unknowns_ofScalar hr]
    exact arrange_ascending h.nodup preferred
  · rintro n rfl hn
    exact ofScalar_first hr (h.unknowns.mem_iff.mp ((h.mem_unknowns_iff n).mpr hn))

/-- **A polynomial, however it is nested, has a row exactly if its degree is at most one, and the row is the one
of its coefficients. The others are refused for a term that is not linear.** -/
theorem ofScalar_isRowOf {s : Scalar} (h : s.isPolynomial = true) (preferred : Option String) :
    ((∃ r, ofScalar s preferred = .ok r) ↔ s.poly.totalDegree ≤ 1) ∧
      (∀ r, ofScalar s preferred = .ok r → r.IsRowOf s.poly preferred) ∧
      ∀ e, ofScalar s preferred = .error e → e.IsNotLinear := by
  by_cases hd : s.poly.totalDegree ≤ 1
  · obtain ⟨r, hr, hdenotes⟩ := ofScalar_linear h hd preferred
    rw [hr]
    refine ⟨iff_of_true ⟨r, rfl⟩ hd, ?_, fun _ he => (nomatch he)⟩
    rintro _ ⟨⟩
    exact hdenotes.isRowOf hr
  · obtain ⟨e, he, hnot⟩ := ofScalar_nonlinear h (not_le.mp hd) preferred
    rw [he]
    refine ⟨iff_of_false (by rintro ⟨_, ⟨⟩⟩) hd, fun _ hr => (nomatch hr), ?_⟩
    rintro _ ⟨⟩
    exact hnot

/-- `(x + 1) * (y + 2) - x * y`: the terms of degree two cancel. -/
def crossed : Scalar :=
  (.symbol "x" + 1) * (.symbol "y" + 2) - .symbol "x" * .symbol "y"

/-- Such terms only show up, and cancel, when the products are multiplied out. -/
theorem ofScalar_isRowOf_crossed : crossed.isPolynomial = true ∧
    ∃ r, ofScalar crossed (some "y") = .ok r ∧ r.unknowns = ["y", "x"] ∧
      r.IsRowOf crossed.poly (some "y") := by
  have hp : crossed.isPolynomial = true := by decide +kernel
  have hu : (ofScalar crossed (some "y")).map unknowns = .ok ["y", "x"] := by decide +kernel
  cases hr : ofScalar crossed (some "y") with
  | error e =>
      rw [hr] at hu
      cases hu
  | ok r =>
      rw [hr] at hu
      exact ⟨hp, r, rfl, Except.ok.inj hu, (ofScalar_isRowOf hp (some "y")).2.1 r hr⟩

end LinearRow

end TensorEquations
