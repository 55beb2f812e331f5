import TensorEquations.Proofs.Substitution.Homomorphism

/-!
# Replacements in turn and at once

A substitution makes its replacements one after the other. In solved form no replacement puts in a
symbol that another one takes out, and then this is the same as making all of them at once.

* `replaceAtOnce` — replacements made at once.
* `replaceAll_eq_replaceAtOnce` — **in solved form replacements in turn are replacements at once.**
* `ActsAtOnce` — the laws of replacements at once that solve a list of inputs.
* `Substitution.computed_actsAtOnce` — **computed substitutions follow them.**
-/

namespace TensorEquations

open MvPolynomial

/-- Every symbol with a replacement goes to what is put in its place, all at once. -/
noncomputable def replaceAtOnce (rs : List (String × Poly)) : Poly →ₐ[ℚ] Poly :=
  bind₁ fun name => (rs.lookup name).getD (X name)

variable {rs rs' : List (String × Poly)}

theorem IsSolved.perm (h : IsSolved rs) (hp : rs'.Perm rs) : IsSolved rs' :=
  ⟨(hp.map Prod.fst).nodup_iff.mpr h.distinct,
    fun r hr r' hr' => h.solved r (hp.mem_iff.mp hr) r' (hp.mem_iff.mp hr')⟩

/-- The order of replacements of distinct symbols does not show when they are made at once. -/
theorem replaceAtOnce_perm (h : (rs.map Prod.fst).Nodup) (hp : rs'.Perm rs) :
    replaceAtOnce rs' = replaceAtOnce rs := by
  have h' : (rs'.map Prod.fst).Nodup := (hp.map Prod.fst).nodup_iff.mpr h
  refine algHom_ext fun name => ?_
  rw [replaceAtOnce, replaceAtOnce, bind₁_X_right, bind₁_X_right]
  congr 1
  cases hl : rs.lookup name with
  | none =>
      rw [List.lookup_eq_none_iff] at hl ⊢
      exact fun r hr => hl r (hp.mem_iff.mp hr)
  | some q =>
      obtain ⟨_, _, hrs, -⟩ := List.lookup_eq_some_iff.mp hl
      exact lookup_of_mem h' (hp.mem_iff.mpr (by simp [hrs]))

/-- **In solved form replacements in turn are replacements at once.** -/
theorem replaceAll_eq_replaceAtOnce (h : IsSolved rs) : replaceAll rs = replaceAtOnce rs := by
  refine algHom_ext fun name => ?_
  rw [replaceAtOnce, bind₁_X_right]
  cases hl : rs.lookup name with
  | none =>
      rw [List.lookup_eq_none_iff] at hl
      refine replaceAll_eq_self fun r hr hv => ?_
      rw [vars_X, Finset.mem_singleton] at hv
      simpa [hv] using hl r hr
  | some q =>
      obtain ⟨_, _, hrs, -⟩ := List.lookup_eq_some_iff.mp hl
      exact replaceAll_X h (name, q) (by simp [hrs])

theorem replaceAll_perm (h : IsSolved rs) (hp : rs'.Perm rs) : replaceAll rs' = replaceAll rs := by
  rw [replaceAll_eq_replaceAtOnce (h.perm hp), replaceAtOnce_perm h.distinct hp,
    replaceAll_eq_replaceAtOnce h]

/-- In solved form a second round of replacements finds nothing to replace. -/
theorem replaceAll_replaceAll (h : IsSolved rs) (p : Poly) :
    replaceAll rs (replaceAll rs p) = replaceAll rs p :=
  replaceAll_eq_self (not_mem_vars_replaceAll h)

/-- The laws of replacements at once that solve a list of inputs: the inputs vanish, every symbol goes
to its right side, a second application changes nothing, and the order of the pairs does not show. -/
structure ActsAtOnce (inputs : List Scalar) (s : Substitution) : Prop where
  vanishes : ∀ x ∈ inputs, (s.applyScalar x).expand = 0
  atOnce : ∀ x : Scalar, x.isPolynomial = true →
    (s.applyScalar x).poly = replaceAtOnce s.replacements x.poly
  twice : ∀ x : Scalar, x.isPolynomial = true →
    (s.applyScalar (s.applyScalar x)).expand = (s.applyScalar x).expand
  reordered : ∀ s' : Substitution, s'.pairs.Perm s.pairs → ∀ x : Scalar, x.isPolynomial = true →
    (s'.applyScalar x).expand = (s.applyScalar x).expand

namespace Substitution

variable {s s' : Substitution}

theorem expand_applyScalar_eq_iff (hs : s.IsPolynomial) (hs' : s'.IsPolynomial) {x y : Scalar}
    (hx : x.isPolynomial = true) (hy : y.isPolynomial = true) :
    (s.applyScalar x).expand = (s'.applyScalar y).expand ↔ s.hom x.poly = s'.hom y.poly := by
  have hd := applyScalar_denotes hs (Scalar.denotes_poly hx)
  have hd' := applyScalar_denotes hs' (Scalar.denotes_poly hy)
  rw [Scalar.expand_eq_iff hd.isPolynomial hd'.isPolynomial, hd.poly_eq, hd'.poly_eq]

/-- The pairs of a solved system act at once. -/
theorem actsAtOnce_of_solvedForm {inputs : List Scalar} (hi : ∀ x ∈ inputs, x.isPolynomial = true)
    {pairs : List (String × Scalar)} (h : SolvedForm (inputs.map Scalar.poly) pairs) :
    ActsAtOnce inputs (ofSolved pairs) := by
  have hs := h.ofSolved_isPolynomial
  have hsolved := h.isSolved
  refine ⟨fun x hx => ?_, fun x hx => ?_, fun x hx => ?_, fun s' hperm x hx => ?_⟩
  · have hd := applyScalar_denotes hs (Scalar.denotes_poly (hi x hx))
    rw [h.hom_eq_zero (List.mem_map_of_mem hx)] at hd
    exact (Scalar.expand_eq_iff hd.isPolynomial (b := 0) rfl).mpr hd.poly_eq
  · rw [(applyScalar_denotes hs (Scalar.denotes_poly hx)).poly_eq, hom,
      replaceAll_eq_replaceAtOnce hsolved]
  · have hd := applyScalar_denotes hs (Scalar.denotes_poly hx)
    rw [expand_applyScalar_eq_iff hs hs hd.isPolynomial hx, hd.poly_eq]
    exact replaceAll_replaceAll hsolved x.poly
  · -- the guard has no part in this, so the permuted pairs may be taken without one
    have hs' : (⟨s'.pairs, fun _ => none⟩ : Substitution).IsPolynomial :=
      ⟨fun _ => rfl, fun pair hpair => hs.pairs pair (hperm.mem_iff.mp hpair)⟩
    have happly := (expand_applyScalar_eq_iff hs' hs hx hx).mpr
      (DFunLike.congr_fun (replaceAll_perm hsolved (hperm.map _)) x.poly)
    exact happly

/-- **A computed substitution solves its inputs and acts at once**, for expressions that are to vanish
and for the pairs of several substitutions read as differences. -/
theorem computed_actsAtOnce :
    (∀ inputs : List Scalar, (∀ x ∈ inputs, x.isPolynomial = true) →
      ∀ s, homogeneous inputs = .ok s → ActsAtOnce inputs s) ∧
    ∀ ss : List Substitution, ss.length ≠ 1 →
      (∀ s ∈ ss, ∀ pair ∈ s.pairs, pair.1.isPolynomial = true ∧ pair.2.isPolynomial = true) →
      ∀ s, merge ss = .ok s → ActsAtOnce ((ss.flatMap (·.pairs)).map fun pair => pair.1 - pair.2) s := by
  refine ⟨fun inputs h s hs => ?_, fun ss hn h s hs => ?_⟩
  · obtain ⟨-, pairs, rfl, hform⟩ := (homogeneous_solvesRows h).ok hs
    exact actsAtOnce_of_solvedForm h hform
  · obtain ⟨-, pairs, rfl, hform⟩ := (merge_solvesRows hn h).ok hs
    refine actsAtOnce_of_solvedForm (fun x hx => ?_) hform
    obtain ⟨pair, hpair, rfl⟩ := List.mem_map.mp hx
    obtain ⟨source, hsource, hmem⟩ := List.mem_flatMap.mp hpair
    obtain ⟨hl, hr⟩ := h source hsource pair hmem
    exact ((Scalar.denotes_poly hl).sub (Scalar.denotes_poly hr)).isPolynomial

/-- A system whose second equation rewrites what the first one puts in, and the same from two
substitutions. -/
theorem computed_actsAtOnce_chain :
    (∃ s, homogeneous [.symbol "x" - .symbol "y", .symbol "y" - .symbol "z" - 1] = .ok s ∧
      s.pairs = [(.symbol "x", .symbol "z" + 1), (.symbol "y", .symbol "z" + 1)] ∧
      ActsAtOnce [.symbol "x" - .symbol "y", .symbol "y" - .symbol "z" - 1] s) ∧
    ∃ s, merge [⟨[(.symbol "x", .symbol "y")], fun _ => none⟩,
        ⟨[(.symbol "y", .symbol "z" + 1)], fun _ => none⟩] = .ok s ∧
      s.pairs = [(.symbol "x", .symbol "z" + 1), (.symbol "y", .symbol "z" + 1)] ∧
      ActsAtOnce [.symbol "x" - .symbol "y", .symbol "y" - (.symbol "z" + 1)] s := by
  have h₁ : (homogeneous [.symbol "x" - .symbol "y", .symbol "y" - .symbol "z" - 1]).map (·.pairs) =
      .ok [(.symbol "x", .symbol "z" + 1), (.symbol "y", .symbol "z" + 1)] := by decide +kernel
  have h₂ : (merge [⟨[(.symbol "x", .symbol "y")], fun _ => none⟩,
      ⟨[(.symbol "y", .symbol "z" + 1)], fun _ => none⟩]).map (·.pairs) =
      .ok [(.symbol "x", .symbol "z" + 1), (.symbol "y", .symbol "z" + 1)] := by decide +kernel
  obtain ⟨s, hs, hpairs⟩ := map_eq_ok h₁
  obtain ⟨s', hs', hpairs'⟩ := map_eq_ok h₂
  exact ⟨⟨s, hs, hpairs, computed_actsAtOnce.1 _ (by decide +kernel) s hs⟩,
    s', hs', hpairs', computed_actsAtOnce.2 _ (by decide) (by decide +kernel) s' hs'⟩

end Substitution

end TensorEquations
