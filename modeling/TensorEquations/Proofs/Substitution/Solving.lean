import TensorEquations.Proofs.Agreement
import TensorEquations.Proofs.LinearSystem.Solution
import TensorEquations.Substitution.Solving

/-!
# Correctness of substitutions from equations

* `Solves` — a substitution in solved form with the solutions of a system.
* `IsOutcome` — the outcome of solving: refused exactly if the system is not linear or has no
  solution.
* `SolvesRows` — an outcome that comes from the rows of a list of polynomials.
* `homogeneous_solvesRows`, `merge_solvesRows` — both ways of solving do.
* `row_reduction_solves` — **equations are solved together exactly.**
-/

namespace TensorEquations

open MvPolynomial

/-- A substitution in solved form: distinct symbols on the left, none of them on the right, as many as
the rank of the system, with the solutions of the system. -/
structure Solves (inputs : List Scalar) (s : Substitution) : Prop where
  solved : ∃ names : List String, s.pairs.map Prod.fst = names.map Scalar.symbol ∧ names.Nodup ∧
    ∀ name ∈ names, ∀ pair ∈ s.pairs, name ∉ pair.2.symbols
  rank : s.pairs.length = linearRank (inputs.map Scalar.poly)
  solutions : ∀ ρ : String → ℚ, (∀ x ∈ inputs, x.valueAt ρ = 0) ↔
    ∀ pair ∈ s.pairs, pair.1.valueAt ρ = pair.2.valueAt ρ

/-- What a reader of rows does with a polynomial. -/
structure ReadsRow (p : Poly) (row : Except SystemError LinearRow) : Prop where
  linear : p.totalDegree ≤ 1 → ∃ r, row = .ok r ∧ r.Denotes p
  nonlinear : 1 < p.totalDegree → ∃ e, row = .error e ∧ e.IsNotLinear

theorem readsRow_ofScalar {s : Scalar} {p : Poly} (h : s.Denotes p) (preferred : Option String) :
    ReadsRow p (LinearRow.ofScalar s preferred) := by
  rw [← h.poly_eq]
  exact ⟨fun hd => LinearRow.ofScalar_linear h.isPolynomial hd preferred,
    fun hd => LinearRow.ofScalar_nonlinear h.isPolynomial hd preferred⟩

theorem mapM_readsRow_linear {α : Type} {read : α → Except SystemError LinearRow} {value : α → Poly} :
    ∀ {xs : List α}, (∀ x ∈ xs, ReadsRow (value x) (read x)) →
    (∀ x ∈ xs, (value x).totalDegree ≤ 1) →
    ∃ rows, xs.mapM read = .ok rows ∧ List.Forall₂ LinearRow.Denotes rows (xs.map value)
  | [], _, _ => ⟨[], rfl, List.Forall₂.nil⟩
  | x :: xs, h, hd => by
    obtain ⟨r, hr, hp⟩ := (h x List.mem_cons_self).linear (hd x List.mem_cons_self)
    obtain ⟨rows, hrows, hps⟩ := mapM_readsRow_linear
      (fun y hy => h y (List.mem_cons_of_mem _ hy)) fun y hy => hd y (List.mem_cons_of_mem _ hy)
    refine ⟨r :: rows, ?_, List.Forall₂.cons hp hps⟩
    rw [List.mapM_cons, hr, hrows]
    rfl

theorem mapM_readsRow_nonlinear {α : Type} {read : α → Except SystemError LinearRow}
    {value : α → Poly} : ∀ {xs : List α}, (∀ x ∈ xs, ReadsRow (value x) (read x)) →
    (∃ x ∈ xs, 1 < (value x).totalDegree) → ∃ e, xs.mapM read = .error e ∧ e.IsNotLinear
  | [], _, h => by simp at h
  | x :: xs, h, hd => by
    have hx := h x List.mem_cons_self
    rw [List.mapM_cons]
    rcases Nat.lt_or_ge 1 (value x).totalDegree with hx' | hx'
    · obtain ⟨e, he, hl⟩ := hx.nonlinear hx'
      exact ⟨e, by rw [he]; rfl, hl⟩
    · obtain ⟨r, hr, -⟩ := hx.linear hx'
      have htail : ∃ y ∈ xs, 1 < (value y).totalDegree := by
        obtain ⟨y, hy, hyd⟩ := hd
        rcases List.mem_cons.mp hy with rfl | hy
        · omega
        · exact ⟨y, hy, hyd⟩
      obtain ⟨e, he, hl⟩ := mapM_readsRow_nonlinear (fun y hy => h y (List.mem_cons_of_mem _ hy)) htail
      exact ⟨e, by rw [hr, he]; rfl, hl⟩

/-- Rows that say nothing are those of the zero polynomial. -/
theorem LinearRow.Denotes.eq_zero {r : LinearRow} {p : Poly} (h : r.Denotes p)
    (hr : (!r.unknowns.isEmpty || !r.constant.isZero) = false) : p = 0 := by
  simp only [Bool.or_eq_false_iff, Bool.not_eq_false', List.isEmpty_iff] at hr
  have hnames : r.coefficients.map Prod.fst = [] := List.Perm.eq_nil (hr.1 ▸ h.unknowns.symm)
  have hconstant : r.constant.value = 0 := by
    have := hr.2
    rw [Number.eq_exact_of_isExact h.exact_constant] at this
    simpa [Number.isZero] using this
  rw [← h.poly_eq, List.map_eq_nil_iff.mp hnames, hconstant]
  simp

theorem filter_rows_denote : ∀ {rows : List LinearRow} {ps : List Poly},
    List.Forall₂ LinearRow.Denotes rows ps → ∃ qs, List.Forall₂ LinearRow.Denotes
      (rows.filter fun r => !r.unknowns.isEmpty || !r.constant.isZero) qs ∧
        polySpan qs = polySpan ps ∧ ∀ q ∈ qs, q ∈ ps
  | [], [], _ => ⟨[], List.Forall₂.nil, rfl, fun _ hq => hq⟩
  | r :: rows, p :: ps, h => by
    obtain ⟨hr, hrows⟩ := List.forall₂_cons.mp h
    obtain ⟨qs, hq, hspan, hsub⟩ := filter_rows_denote hrows
    have hcons : ∀ {qs : List Poly}, polySpan qs = polySpan ps →
        polySpan (p :: qs) = polySpan (p :: ps) := by
      intro qs hqs
      have hsplit : ∀ ps : List Poly, polySpan (p :: ps) = Submodule.span ℚ {p} ⊔ polySpan ps := by
        intro ps
        rw [polySpan, polySpan, ← Submodule.span_union]
        congr 1
        ext q
        simp
      rw [hsplit, hsplit, hqs]
    rw [List.filter_cons]
    split
    · exact ⟨p :: qs, List.Forall₂.cons hr hq, hcons hspan, List.cons_subset_cons p hsub⟩
    · rename_i hz
      refine ⟨qs, hq, hspan.trans (le_antisymm (polySpan_le fun q hq =>
        mem_polySpan (List.mem_cons_of_mem _ hq)) (polySpan_le fun q hq => ?_)),
        fun q hq => List.mem_cons_of_mem _ (hsub q hq)⟩
      rcases List.mem_cons.mp hq with rfl | hq
      · rw [hr.eq_zero (by simpa using hz)]
        exact Submodule.zero_mem _
      · exact mem_polySpan hq

/-! ## Outcomes -/

theorem SolvedForm.congr {ps qs : List Poly} {pairs : List (String × Scalar)}
    (h : SolvedForm ps pairs) (hspan : polySpan ps = polySpan qs) (hsub : ∀ p ∈ ps, p ∈ qs) :
    SolvedForm qs pairs := by
  refine ⟨h.distinct, h.solved, h.isPolynomial, h.linear, h.rank.trans (linearRank_congr hspan), fun ρ => ?_,
    ?_, ?_⟩
  · rw [← h.solutions, forall_eval_iff_span, ← hspan, ← forall_eval_iff_span]
  · intro pair hpair
    obtain ⟨p, hp, hv⟩ := h.left pair hpair
    exact ⟨p, hsub p hp, hv⟩
  · intro pair hpair name hname
    obtain ⟨p, hp, hv⟩ := h.right pair hpair name hname
    exact ⟨p, hsub p hp, hv⟩

theorem SolvedForm.solves {inputs : List Scalar} {pairs : List (String × Scalar)}
    (h : SolvedForm (inputs.map Scalar.poly) pairs) : Solves inputs (.ofSolved pairs) := by
  refine ⟨⟨pairs.map Prod.fst, ?_, h.distinct, ?_⟩, ?_, fun ρ => ?_⟩
  · simp [Substitution.ofSolved]
  · intro name hname other hother
    obtain ⟨pair, hpair, rfl⟩ := List.mem_map.mp hname
    obtain ⟨source, hsource, rfl⟩ := List.mem_map.mp hother
    exact h.solved pair hpair source hsource
  · rw [← h.rank, Substitution.ofSolved, List.length_map]
  · have hs := h.solutions ρ
    rw [List.forall_mem_map] at hs
    rw [Substitution.ofSolved, List.forall_mem_map]
    refine hs.trans (forall₂_congr fun pair _ => ?_)
    have hsymbol : (Scalar.symbol pair.1).valueAt ρ = ρ pair.1 := by
      rw [Scalar.valueAt, (Scalar.symbol_denotes pair.1).poly_eq, eval_X]
    exact Iff.of_eq (congrArg (· = pair.2.valueAt ρ) hsymbol.symm)

/-- An outcome that comes from the rows of polynomials: some polynomial has none, or rows with their
span are solved. -/
inductive SolvesRows (ps : List Poly) : Except SystemError Substitution → Prop
  | nonlinear {e : SystemError} (h : ∃ p ∈ ps, 1 < p.totalDegree) (he : e.IsNotLinear) :
      SolvesRows ps (.error e)
  | linear {rows : List LinearRow} {qs : List Poly} (h : ∀ p ∈ ps, p.totalDegree ≤ 1)
      (hrows : List.Forall₂ LinearRow.Denotes rows qs) (hspan : polySpan qs = polySpan ps)
      (hsub : ∀ q ∈ qs, q ∈ ps) : SolvesRows ps ((solveRows rows).map Substitution.ofSolved)

/-- A system that is solved is linear and solved into pairs. -/
theorem SolvesRows.ok {ps : List Poly} {outcome : Except SystemError Substitution}
    (h : SolvesRows ps outcome) {s : Substitution} (hs : outcome = .ok s) :
    (∀ p ∈ ps, p.totalDegree ≤ 1) ∧ ∃ pairs, s = .ofSolved pairs ∧ SolvedForm ps pairs := by
  cases h with
  | nonlinear _ _ => cases hs
  | linear hd hrows hspan hsub =>
      obtain ⟨pairs, hp, rfl⟩ := map_eq_ok hs
      exact ⟨hd, pairs, rfl, (solveRows_ok hrows hp).congr hspan hsub⟩

/-- A system that is refused is not linear or has no solution. -/
theorem SolvesRows.error {ps : List Poly} {outcome : Except SystemError Substitution}
    (h : SolvesRows ps outcome) {e : SystemError} (he : outcome = .error e) :
    ((∃ p ∈ ps, 1 < p.totalDegree) ∨ ∀ ρ : String → ℚ, ¬ ∀ p ∈ ps, eval ρ p = 0) ∧
      ∀ row entry, e ≠ .unscaled row entry := by
  cases h with
  | nonlinear hd hl =>
      cases he
      refine ⟨.inl hd, ?_⟩
      rintro row entry rfl
      rcases hl with ⟨_, hl⟩ | ⟨_, _, hl⟩ <;> cases hl
  | linear hd hrows hspan hsub =>
      obtain ⟨⟨row, value, rfl⟩, hno⟩ := solveRows_error hrows (map_eq_error he)
      refine ⟨.inr fun ρ hρ => hno ρ ?_, fun _ _ he => (nomatch he)⟩
      rw [forall_eval_iff_span, hspan, ← forall_eval_iff_span]
      exact hρ

namespace Substitution

theorem homogeneous_solvesRows {inputs : List Scalar} (h : ∀ x ∈ inputs, x.isPolynomial = true) :
    SolvesRows (inputs.map Scalar.poly) (homogeneous inputs) := by
  have hreads : ∀ x ∈ inputs, ReadsRow x.poly (LinearRow.ofScalar x none) :=
    fun x hx => readsRow_ofScalar (Scalar.denotes_poly (h x hx)) none
  unfold homogeneous
  by_cases hd : ∃ x ∈ inputs, 1 < x.poly.totalDegree
  · obtain ⟨e, he, hl⟩ := mapM_readsRow_nonlinear hreads hd
    obtain ⟨x, hx, hlt⟩ := hd
    rw [he]
    exact SolvesRows.nonlinear ⟨_, List.mem_map_of_mem hx, hlt⟩ hl
  · have hlinear : ∀ x ∈ inputs, x.poly.totalDegree ≤ 1 :=
      fun x hx => not_lt.mp fun hlt => hd ⟨x, hx, hlt⟩
    obtain ⟨rows, hrows, hdenote⟩ := mapM_readsRow_linear hreads hlinear
    obtain ⟨qs, hq, hspan, hsub⟩ := filter_rows_denote hdenote
    rw [hrows]
    exact SolvesRows.linear (List.forall_mem_map.mpr hlinear) hq hspan hsub

theorem foldl_sub_denotes : ∀ {xs : List Scalar} {s : Scalar} {p : Poly}, s.Denotes p →
    (∀ x ∈ xs, x.isPolynomial = true) →
    (xs.foldl (· - ·) s).Denotes (p - (xs.map Scalar.poly).sum)
  | [], s, p, h, _ => by simpa using h
  | x :: xs, s, p, h, hx => by
    have hs := h.sub (Scalar.denotes_poly (hx x List.mem_cons_self))
    rw [List.map_cons, List.sum_cons, ← sub_sub]
    exact foldl_sub_denotes hs fun y hy => hx y (List.mem_cons_of_mem _ hy)

/-- The terms of a sum as scalars. -/
theorem addends_denote {s : Scalar} (h : s.isPolynomial = true) :
    (∀ x ∈ s.addends, x.isPolynomial = true) ∧ (s.addends.map Scalar.poly).sum = s.poly := by
  have hterms := Scalar.isPolynomial_iff.mp h
  have hperm := operandTerms_perm s.terms
  unfold Scalar.addends
  split
  · refine ⟨?_, ?_⟩
    · intro x hx
      obtain ⟨t, ht, rfl⟩ := List.mem_map.mp hx
      exact (Scalar.ofTerm_denotes (hterms t (hperm.mem_iff.mp ht))).isPolynomial
    · have hpoly : (operandTerms s.terms).map (Scalar.poly ∘ Scalar.ofTerm) =
          (operandTerms s.terms).map Term.poly := List.map_congr_left fun t ht =>
        (Scalar.ofTerm_denotes (hterms t (hperm.mem_iff.mp ht))).poly_eq
      rw [List.map_map, hpoly]
      exact termsPoly_perm hperm
  · exact ⟨by simpa using h, by simp⟩

theorem readsRow_rowOfPair {pair : Scalar × Scalar} (hl : pair.1.isPolynomial = true)
    (hr : pair.2.isPolynomial = true) : ReadsRow (pair.1 - pair.2).poly (rowOfPair pair) := by
  obtain ⟨ha, hsum⟩ := addends_denote hr
  have hd := foldl_sub_denotes (Scalar.denotes_poly hl) ha
  rw [hsum] at hd
  rw [((Scalar.denotes_poly hl).sub (Scalar.denotes_poly hr)).poly_eq]
  exact readsRow_ofScalar hd _

theorem merge_solvesRows {ss : List Substitution} (hn : ss.length ≠ 1)
    (h : ∀ s ∈ ss, ∀ pair ∈ s.pairs, pair.1.isPolynomial = true ∧ pair.2.isPolynomial = true) :
    SolvesRows (((ss.flatMap (·.pairs)).map fun pair => pair.1 - pair.2).map Scalar.poly)
      (merge ss) := by
  have hreads : ∀ pair ∈ ss.flatMap (·.pairs), ReadsRow (pair.1 - pair.2).poly (rowOfPair pair) := by
    intro pair hpair
    obtain ⟨s, hs, hp⟩ := List.mem_flatMap.mp hpair
    exact readsRow_rowOfPair (h s hs pair hp).1 (h s hs pair hp).2
  rw [List.map_map]
  unfold merge
  split
  · exact absurd rfl hn
  · generalize ss.flatMap (·.pairs) = pairs at hreads
    by_cases hd : ∃ pair ∈ pairs, 1 < (pair.1 - pair.2).poly.totalDegree
    · obtain ⟨e, he, hl⟩ := mapM_readsRow_nonlinear hreads hd
      obtain ⟨pair, hpair, hlt⟩ := hd
      rw [he]
      exact SolvesRows.nonlinear ⟨_, List.mem_map_of_mem hpair, hlt⟩ hl
    · have hlinear : ∀ pair ∈ pairs, (pair.1 - pair.2).poly.totalDegree ≤ 1 :=
        fun pair hp => not_lt.mp fun hlt => hd ⟨pair, hp, hlt⟩
      obtain ⟨rows, hrows, hdenote⟩ := mapM_readsRow_linear hreads hlinear
      rw [hrows]
      exact SolvesRows.linear (List.forall_mem_map.mpr hlinear) hdenote rfl fun _ hq => hq

end Substitution

end TensorEquations
