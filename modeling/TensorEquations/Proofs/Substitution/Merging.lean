import TensorEquations.Proofs.LinearSystem.Reduced
import TensorEquations.Proofs.Scalar.Replacement
import TensorEquations.Proofs.Substitution.Solving

/-!
# Merging what is solved

* `Substitution.IsSolvedForm` — pairs in solved form: distinct symbols on the left, expanded polynomials of
  degree at most one on the right, and no left symbol in them.
* `Substitution.merge_of_isSolvedForm` — **pairs in solved form are merged into themselves.**
* `Substitution.isSolvedForm_of_solvesRows` — what is computed is in solved form.
* `Substitution.merge_solved` — **so what is computed from several equations is left alone.**
* `Substitution.merge_one_unsolved` — a list of just one is not solved.
-/

namespace TensorEquations

open MvPolynomial

namespace Substitution

/-- Pairs in solved form: distinct symbols on the left, expanded polynomials of degree at most one on the
right, and no left symbol in any right side. -/
structure IsSolvedForm (pairs : List (Scalar × Scalar)) : Prop where
  symbols : ∀ pair ∈ pairs, ∃ name, pair.1 = .symbol name
  distinct : (pairs.map Prod.fst).Nodup
  isPolynomial : ∀ pair ∈ pairs, pair.2.isPolynomial = true
  expanded : ∀ pair ∈ pairs, pair.2.expand = pair.2
  linear : ∀ pair ∈ pairs, pair.2.poly.totalDegree ≤ 1
  solved : ∀ pair ∈ pairs, ∀ name, pair.1 = .symbol name → ∀ other ∈ pairs, name ∉ other.2.symbols

/-! ## Rows of pairs -/

/-- The row of a pair whose right side is free of the left symbol begins with that symbol. -/
theorem rowOfPair_states {name : String} {right : Scalar} (hr : right.isPolynomial = true)
    (hd : right.poly.totalDegree ≤ 1) (hn : name ∉ right.poly.vars) :
    ∃ r, rowOfPair (.symbol name, right) = .ok r ∧ r.StatesPair (name, right) := by
  have hl := Scalar.symbol_denotes name
  have hpoly : (Scalar.symbol name - right).poly = X name - right.poly :=
    (hl.sub (Scalar.denotes_poly hr)).poly_eq
  have hdegree : (X name - right.poly : Poly).totalDegree ≤ 1 :=
    (totalDegree_sub _ _).trans (max_le (totalDegree_X name).le hd)
  have hreads : ReadsRow (Scalar.symbol name - right).poly (rowOfPair (.symbol name, right)) :=
    readsRow_rowOfPair (show (Scalar.symbol name, right).1.isPolynomial = true from hl.isPolynomial) hr
  obtain ⟨r, hrow, hdenotes⟩ := hreads.linear (hpoly ▸ hdegree)
  rw [hpoly] at hdenotes
  have hvars : name ∈ (X name - right.poly : Poly).vars := by
    by_contra hv
    have hzero := coeff_single_of_not_mem hv
    simp [coeff_sub, coeff_single_of_not_mem hn, coeff_X] at hzero
  refine ⟨r, hrow, hdenotes, ?_⟩
  rw [rowOfPair, Scalar.symbol?_symbol] at hrow
  exact LinearRow.ofScalar_first hrow (hdenotes.unknowns.mem_iff.mp (hdenotes.mem_unknowns hvars))

theorem mapM_rowOfPair_states : ∀ {named : List (String × Scalar)},
    (∀ pair ∈ named, pair.2.isPolynomial = true ∧ pair.2.poly.totalDegree ≤ 1 ∧
      pair.1 ∉ pair.2.poly.vars) →
    ∃ rows, (ofSolved named).pairs.mapM rowOfPair = .ok rows ∧
      List.Forall₂ LinearRow.StatesPair rows named
  | [], _ => ⟨[], rfl, List.Forall₂.nil⟩
  | pair :: named, h => by
    obtain ⟨hr, hd, hn⟩ := h pair List.mem_cons_self
    obtain ⟨r, hrow, hstates⟩ := rowOfPair_states hr hd hn
    obtain ⟨rows, hrows, hall⟩ := mapM_rowOfPair_states fun p hp => h p (List.mem_cons_of_mem _ hp)
    refine ⟨r :: rows, ?_, List.Forall₂.cons hstates hall⟩
    show ((Scalar.symbol pair.1, pair.2) :: (ofSolved named).pairs).mapM rowOfPair = _
    rw [List.mapM_cons, hrow, hrows]
    rfl

/-! ## Solved pairs -/

/-- Pairs with symbols on the left, by name. -/
theorem exists_ofSolved {pairs : List (Scalar × Scalar)}
    (h : ∀ pair ∈ pairs, ∃ name, pair.1 = .symbol name) : ∃ named, (ofSolved named).pairs = pairs := by
  refine ⟨pairs.map fun pair => (pair.1.symbol?.getD "", pair.2), ?_⟩
  rw [ofSolved, List.map_map]
  refine (List.map_congr_left fun pair hpair => ?_).trans (List.map_id pairs)
  obtain ⟨name, hname⟩ := h pair hpair
  exact Prod.ext (by simp [hname, Scalar.symbol?_symbol]) rfl

/-- **Pairs in solved form are merged into themselves.** -/
theorem merge_of_isSolvedForm {ss : List Substitution} (hn : ss.length ≠ 1)
    (h : IsSolvedForm (ss.flatMap (·.pairs))) : merge ss = .ok { pairs := ss.flatMap (·.pairs) } := by
  obtain ⟨named, hnamed⟩ := exists_ofSolved h.symbols
  have hmem : ∀ pair ∈ named, (Scalar.symbol pair.1, pair.2) ∈ ss.flatMap (·.pairs) :=
    fun pair hpair => hnamed ▸ List.mem_map_of_mem hpair
  have hsolved : ∀ pair ∈ named, ∀ other ∈ named, pair.1 ∉ other.2.poly.vars :=
    fun pair hpair other hother hv =>
      h.solved _ (hmem pair hpair) pair.1 rfl _ (hmem other hother) (Scalar.mem_symbols_of_mem_vars hv)
  have hdistinct : (named.map Prod.fst).Nodup := by
    have hd := h.distinct
    rw [← hnamed, ofSolved, List.map_map] at hd
    exact List.Nodup.of_map Scalar.symbol (by rwa [List.map_map])
  have hexpanded : ∀ pair ∈ named, IsExpanded pair.2.terms := by
    intro pair hpair
    have hx := Scalar.expand_isExpanded (h.isPolynomial _ (hmem pair hpair))
    rwa [h.expanded _ (hmem pair hpair)] at hx
  obtain ⟨rows, hrows, hstates⟩ := mapM_rowOfPair_states fun pair hpair =>
    ⟨h.isPolynomial _ (hmem pair hpair), h.linear _ (hmem pair hpair), hsolved pair hpair pair hpair⟩
  have hsolve := solveRows_of_solved ⟨hstates, hdistinct, hsolved⟩ hexpanded
  unfold merge
  split
  · exact absurd rfl hn
  · rw [← hnamed, hrows]
    show (solveRows rows).map ofSolved = _
    rw [hsolve]
    rfl

theorem isSolvedForm_ofSolved {ps : List Poly} {pairs : List (String × Scalar)} (h : SolvedForm ps pairs)
    (hx : ∀ pair ∈ pairs, IsExpanded pair.2.terms) : IsSolvedForm (ofSolved pairs).pairs := by
  have hmap : ∀ {p : Scalar × Scalar → Prop},
      (∀ pair ∈ pairs, p (.symbol pair.1, pair.2)) → ∀ pair ∈ (ofSolved pairs).pairs, p pair :=
    fun hp => List.forall_mem_map.mpr hp
  refine ⟨hmap fun pair _ => ⟨pair.1, rfl⟩, ?_, hmap h.isPolynomial,
    hmap fun pair hpair => Scalar.expand_eq_self (h.isPolynomial pair hpair) (hx pair hpair),
    hmap h.linear, hmap fun pair hpair name hname => hmap fun other hother => ?_⟩
  · rw [ofSolved, List.map_map]
    have hd := h.distinct.map Scalar.symbol_injective
    rwa [List.map_map] at hd
  · exact Scalar.symbol_injective hname ▸ h.solved pair hpair other hother

theorem isSolvedForm_of_solvesRows {ps : List Poly} {outcome : Except SystemError Substitution}
    (h : SolvesRows ps outcome) {s : Substitution} (hs : outcome = .ok s) :
    IsSolvedForm s.pairs ∧ s = { pairs := s.pairs } := by
  cases h with
  | nonlinear _ _ => cases hs
  | linear _ hrows _ _ =>
      obtain ⟨pairs, hp, rfl⟩ := map_eq_ok hs
      exact ⟨isSolvedForm_ofSolved (solveRows_ok hrows hp) (solveRows_isExpanded hrows hp), rfl⟩

/-- What is computed from a system stays as it is when it is merged with nothing. -/
theorem merge_empty_of_solvesRows {ps : List Poly} {outcome : Except SystemError Substitution}
    (h : SolvesRows ps outcome) {s : Substitution} (hs : outcome = .ok s) :
    merge [s, .empty] = .ok s := by
  obtain ⟨hform, hguard⟩ := isSolvedForm_of_solvesRows h hs
  have hpairs : [s, .empty].flatMap (·.pairs) = s.pairs := List.append_nil _
  have hn : [s, Substitution.empty].length ≠ 1 := by simp
  rw [merge_of_isSolvedForm hn (hpairs ▸ hform), hpairs, ← hguard]

/-- **Merging leaves solved forms alone**, and with them all that is computed from several equations. -/
theorem merge_solved :
    (∀ ss : List Substitution, ss.length ≠ 1 → IsSolvedForm (ss.flatMap (·.pairs)) →
      merge ss = .ok { pairs := ss.flatMap (·.pairs) }) ∧
    (∀ inputs : List Scalar, (∀ x ∈ inputs, x.isPolynomial = true) →
      ∀ s, homogeneous inputs = .ok s → merge [s, .empty] = .ok s) ∧
    ∀ ss : List Substitution, ss.length ≠ 1 →
      (∀ s ∈ ss, ∀ pair ∈ s.pairs, pair.1.isPolynomial = true ∧ pair.2.isPolynomial = true) →
      ∀ s, merge ss = .ok s → merge [s, .empty] = .ok s :=
  ⟨fun _ hn h => merge_of_isSolvedForm hn h,
    fun _ h _ hs => merge_empty_of_solvesRows (homogeneous_solvesRows h) hs,
    fun _ hn h _ hs => merge_empty_of_solvesRows (merge_solvesRows hn h) hs⟩

/-- Two substitutions that share a symbol on the right, and the results of two systems. -/
theorem merge_solved_shared :
    merge [⟨[(.symbol "x", .symbol "z" + 1)], fun _ => none⟩, ⟨[(.symbol "y", .symbol "z")], fun _ => none⟩] =
      .ok ⟨[(.symbol "x", .symbol "z" + 1), (.symbol "y", .symbol "z")], fun _ => none⟩ ∧
    (∃ s, homogeneous [.symbol "x" + .symbol "y" - 3] = .ok s ∧ merge [s, .empty] = .ok s) ∧
    ∃ s, merge [⟨[(.symbol "x", .symbol "y")], fun _ => none⟩, ⟨[(.symbol "y", .symbol "x")], fun _ => none⟩] =
      .ok s ∧ merge [s, .empty] = .ok s := by
  have h₀ : (homogeneous [.symbol "x" - .symbol "z" - 1, .symbol "y" - .symbol "z"]).map (·.pairs) =
      .ok [(.symbol "x", .symbol "z" + 1), (.symbol "y", .symbol "z")] := by decide +kernel
  have h₁ : (homogeneous [.symbol "x" + .symbol "y" - 3]).map (·.pairs) =
      .ok [(.symbol "x", 3 - .symbol "y")] := by decide +kernel
  have h₂ : (merge [⟨[(.symbol "x", .symbol "y")], fun _ => none⟩,
      ⟨[(.symbol "y", .symbol "x")], fun _ => none⟩]).map (·.pairs) =
      .ok [(.symbol "x", .symbol "y")] := by decide +kernel
  obtain ⟨s₀, hs₀, hpairs⟩ := map_eq_ok h₀
  obtain ⟨s, hs, -⟩ := map_eq_ok h₁
  obtain ⟨s', hs', -⟩ := map_eq_ok h₂
  have hform := (isSolvedForm_of_solvesRows (homogeneous_solvesRows (by decide +kernel)) hs₀).1
  rw [hpairs] at hform
  exact ⟨merge_solved.1 _ (by decide) hform,
    ⟨s, hs, merge_solved.2.1 _ (by decide +kernel) s hs⟩,
    s', hs', merge_solved.2.2 _ (by decide) (by decide +kernel) s' hs'⟩

/-- **A single substitution is returned as it is, solved or not**: two symbols that replace each other
are not in solved form, and merged with nothing they become one pair. -/
theorem merge_one_unsolved :
    ∃ s, merge [⟨[(.symbol "x", .symbol "y"), (.symbol "y", .symbol "x")], fun _ => none⟩] = .ok s ∧
      merge [s, .empty] ≠ .ok s := by
  refine ⟨_, rfl, fun h => ?_⟩
  have hpairs := congrArg (fun outcome => (outcome.map (·.pairs)).toOption) h
  exact absurd hpairs (by decide +kernel)

end Substitution

end TensorEquations
