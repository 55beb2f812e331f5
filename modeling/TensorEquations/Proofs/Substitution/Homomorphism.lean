import Mathlib.Algebra.CharZero.Infinite
import Mathlib.Algebra.MvPolynomial.Funext
import Mathlib.Algebra.MvPolynomial.Monad
import TensorEquations.Proofs.Substitution.Solving
import TensorEquations.Proofs.Tensor.Related

/-!
# Substitutions as homomorphisms

A substitution of polynomials for symbols acts on polynomials as a homomorphism.

* `Substitution.IsPolynomial`, `Substitution.hom` — a substitution of polynomials for symbols that
  refuses nothing, and its homomorphism.
* `Substitution.update_related` — **such a substitution takes a tensor to its image.**
* `pullback`, `eval_algHom` — the values of images.
* `eval_replaceAll`, `replaceAll_eq_self`, `mem_vars_replaceAll` — what replacements in turn do to values and to
  variables.
* `IsSolved`, `not_mem_vars_replaceAll`, `replaceAll_X` — replacements of which none puts in a symbol that is
  replaced.
* `SolvedForm.hom_eq_zero`, `SolvedForm.eval_hom` — **the solution of a system makes the system vanish
  and keeps the values at all solutions.**
-/

namespace TensorEquations

open MvPolynomial

/-! ## Values -/

/-- The values that the images of the symbols have at an assignment. -/
noncomputable def pullback (φ : Poly →ₐ[ℚ] Poly) (ρ : String → ℚ) : String → ℚ :=
  fun name => eval ρ (φ (X name))

theorem eval_algHom (φ : Poly →ₐ[ℚ] Poly) (ρ : String → ℚ) (p : Poly) :
    eval ρ (φ p) = eval (pullback φ ρ) p := by
  have hhom : (aeval ρ : Poly →ₐ[ℚ] ℚ).comp φ = aeval (pullback φ ρ) := by
    refine algHom_ext fun name => ?_
    rw [AlgHom.comp_apply, aeval_X]
    rfl
  exact DFunLike.congr_fun hhom p

/-! ## Replacements in turn -/

/-- The homomorphism of replacements, each on the result of the one before. -/
noncomputable def replaceAll : List (String × Poly) → Poly →ₐ[ℚ] Poly
  | [] => AlgHom.id ℚ Poly
  | (name, q) :: rest => (replaceAll rest).comp (replaceHom name q)

theorem replaceAll_cons (name : String) (q : Poly) (rest : List (String × Poly)) (p : Poly) :
    replaceAll ((name, q) :: rest) p = replaceAll rest (replaceHom name q p) := rfl

/-- Replacements keep the values at an assignment that satisfies them. -/
theorem eval_replaceAll {ρ : String → ℚ} : ∀ {rs : List (String × Poly)},
    (∀ r ∈ rs, ρ r.1 = eval ρ r.2) → ∀ p, eval ρ (replaceAll rs p) = eval ρ p
  | [], _, _ => rfl
  | (name, q) :: rest, h, p => by
    rw [replaceAll_cons, eval_replaceAll fun r hr => h r (List.mem_cons_of_mem _ hr)]
    exact eval_replaceHom (h _ List.mem_cons_self) p

theorem replaceHom_eq_self {name : String} {q p : Poly} (h : name ∉ p.vars) :
    replaceHom name q p = p := by
  have hcongr : (replaceHom name q : Poly →+* Poly) p = (RingHom.id Poly) p := by
    refine hom_congr_vars ?_ (fun other ho _ => ?_) rfl
    · ext c
      simp
    · have hne : other ≠ name := fun he => h (he ▸ ho)
      exact replaceHom_X_of_ne hne q
  exact hcongr

/-- Replacements of other symbols change nothing. -/
theorem replaceAll_eq_self : ∀ {rs : List (String × Poly)} {p : Poly},
    (∀ r ∈ rs, r.1 ∉ p.vars) → replaceAll rs p = p
  | [], _, _ => rfl
  | (name, q) :: rest, p, h => by
    rw [replaceAll_cons, replaceHom_eq_self (h _ List.mem_cons_self)]
    exact replaceAll_eq_self fun r hr => h r (List.mem_cons_of_mem _ hr)

theorem mem_vars_replaceHom {name n : String} {q p : Poly} (h : n ∈ (replaceHom name q p).vars) :
    n ∈ p.vars ∨ n ∈ q.vars := by
  obtain ⟨i, hi, hn⟩ := mem_vars_bind₁ _ p h
  by_cases hin : i = name
  · rw [hin, Function.update_self] at hn
    exact .inr hn
  · rw [Function.update_of_ne hin, vars_X, Finset.mem_singleton] at hn
    exact .inl (hn ▸ hi)

/-- Replacements bring in no other variables than those of what they put in. -/
theorem mem_vars_replaceAll {n : String} : ∀ {rs : List (String × Poly)} {p : Poly},
    n ∈ (replaceAll rs p).vars → n ∈ p.vars ∨ ∃ r ∈ rs, n ∈ r.2.vars
  | [], _, h => .inl h
  | (name, q) :: rest, p, h => by
    rcases mem_vars_replaceAll (p := replaceHom name q p) h with h | ⟨r, hr, h⟩
    · exact (mem_vars_replaceHom h).imp_right fun h => ⟨_, List.mem_cons_self, h⟩
    · exact .inr ⟨r, List.mem_cons_of_mem _ hr, h⟩

theorem not_mem_vars_replaceHom {name : String} {q p : Poly} (h : name ∉ q.vars) :
    name ∉ (replaceHom name q p).vars := by
  intro hn
  obtain ⟨i, -, hn⟩ := mem_vars_bind₁ _ p hn
  by_cases hi : i = name
  · rw [hi, Function.update_self] at hn
    exact h hn
  · rw [Function.update_of_ne hi, vars_X, Finset.mem_singleton] at hn
    exact hi hn.symm

/-- Replacements of distinct symbols none of which is put in again. -/
structure IsSolved (rs : List (String × Poly)) : Prop where
  distinct : (rs.map Prod.fst).Nodup
  solved : ∀ r ∈ rs, ∀ r' ∈ rs, r.1 ∉ r'.2.vars

theorem IsSolved.tail {r : String × Poly} {rest : List (String × Poly)} (h : IsSolved (r :: rest)) : IsSolved rest :=
  ⟨(List.nodup_cons.mp h.distinct).2,
    fun a ha b hb => h.solved a (List.mem_cons_of_mem _ ha) b (List.mem_cons_of_mem _ hb)⟩

/-- In solved form no symbol that is replaced is left. -/
theorem not_mem_vars_replaceAll : ∀ {rs : List (String × Poly)} {p : Poly}, IsSolved rs →
    ∀ r ∈ rs, r.1 ∉ (replaceAll rs p).vars
  | (name, q) :: rest, p, h, r, hr => by
    rw [replaceAll_cons]
    rcases List.mem_cons.mp hr with rfl | hr
    · intro hn
      rcases mem_vars_replaceAll hn with hn | ⟨r', hr', hn⟩
      · exact not_mem_vars_replaceHom (h.solved _ List.mem_cons_self _ List.mem_cons_self) hn
      · exact h.solved _ List.mem_cons_self r' (List.mem_cons_of_mem _ hr') hn
    · exact not_mem_vars_replaceAll h.tail r hr

/-- In solved form every symbol is replaced by its own right side. -/
theorem replaceAll_X : ∀ {rs : List (String × Poly)}, IsSolved rs → ∀ r ∈ rs, replaceAll rs (X r.1) = r.2
  | (name, q) :: rest, h, r, hr => by
    have hname : name ∉ rest.map Prod.fst := (List.nodup_cons.mp h.distinct).1
    rw [replaceAll_cons]
    rcases List.mem_cons.mp hr with rfl | hr
    · rw [replaceHom_X_self]
      exact replaceAll_eq_self fun r' hr' => h.solved r' (List.mem_cons_of_mem _ hr') _ List.mem_cons_self
    · have hne : r.1 ≠ name := fun he => hname (List.mem_map.mpr ⟨r, hr, he⟩)
      rw [replaceHom_X_of_ne hne]
      exact replaceAll_X h.tail r hr

/-! ## Degrees -/

/-- A homomorphism that takes symbols to polynomials of degree at most one does not raise the degree of
such polynomials. -/
theorem totalDegree_hom_le_one {φ : Poly →ₐ[ℚ] Poly} (hφ : ∀ n, (φ (X n)).totalDegree ≤ 1) {p : Poly}
    (hp : p.totalDegree ≤ 1) : (φ p).totalDegree ≤ 1 := by
  have hconstant : ∀ c : ℚ, φ (C c) = C c := φ.commutes
  rw [p.as_sum, map_sum]
  refine totalDegree_finsetSum_le fun m hm => ?_
  have hdegree : m.degree ≤ 1 := (le_totalDegree hm).trans hp
  rcases Nat.le_one_iff_eq_zero_or_eq_one.mp hdegree with h | h
  · rw [(Finsupp.degree_eq_zero_iff m).mp h]
    have hC : (φ (C (coeff 0 p))).totalDegree = 0 := by rw [hconstant, totalDegree_C]
    exact hC.le.trans (Nat.zero_le 1)
  · obtain ⟨n, rfl⟩ : m ∈ Set.range fun n : String => Finsupp.single n 1 := by
      rw [Finsupp.range_single_one]
      exact h
    have hmul : φ (monomial (Finsupp.single n 1) (coeff (Finsupp.single n 1) p)) =
        C (coeff (Finsupp.single n 1) p) * φ (X n) := by
      rw [← C_mul_X_eq_monomial, map_mul, hconstant]
    rw [hmul]
    refine (totalDegree_mul _ _).trans ?_
    rw [totalDegree_C, Nat.zero_add]
    exact hφ n

theorem totalDegree_replaceAll_le_one : ∀ {rs : List (String × Poly)},
    (∀ r ∈ rs, r.2.totalDegree ≤ 1) → ∀ {p : Poly}, p.totalDegree ≤ 1 →
    (replaceAll rs p).totalDegree ≤ 1
  | [], _, _, hp => hp
  | (name, q) :: rest, h, p, hp => by
    rw [replaceAll_cons]
    refine totalDegree_replaceAll_le_one (fun r hr => h r (List.mem_cons_of_mem _ hr)) ?_
    refine totalDegree_hom_le_one (fun n => ?_) hp
    by_cases hn : n = name
    · rw [hn, replaceHom_X_self]
      exact h _ List.mem_cons_self
    · rw [replaceHom_X_of_ne hn, totalDegree_X]

namespace Substitution

/-- A substitution of polynomials for symbols that refuses no value. -/
structure IsPolynomial (s : Substitution) : Prop where
  guard : ∀ q, s.guard q = none
  pairs : ∀ pair ∈ s.pairs, (∃ name, pair.1 = .symbol name) ∧ pair.2.isPolynomial = true

/-- The symbols that a substitution replaces, and what it puts in their places. -/
noncomputable def replacements (s : Substitution) : List (String × Poly) :=
  s.pairs.map fun pair => (pair.1.symbol?.getD "", pair.2.poly)

/-- The homomorphism of a substitution. -/
noncomputable def hom (s : Substitution) : Poly →ₐ[ℚ] Poly := replaceAll s.replacements

/-! ## Scalars and tensors -/

theorem foldl_replacePart_denotes : ∀ {pairs : List (Scalar × Scalar)} {x : Scalar} {p : Poly},
    (∀ pair ∈ pairs, (∃ name, pair.1 = .symbol name) ∧ pair.2.isPolynomial = true) → x.Denotes p →
    (pairs.foldl (fun x pair => x.replacePart pair.1 pair.2) x).Denotes
      (replaceAll (pairs.map fun pair => (pair.1.symbol?.getD "", pair.2.poly)) p)
  | [], _, _, _, hx => hx
  | (left, right) :: pairs, x, p, h, hx => by
    obtain ⟨⟨name, hname⟩, hright⟩ := h _ List.mem_cons_self
    obtain rfl : left = .symbol name := hname
    have hstep := hx.replacePart (Scalar.denotes_poly hright) name
    have ih := foldl_replacePart_denotes (fun q hq => h q (List.mem_cons_of_mem _ hq)) hstep
    rw [List.map_cons, Scalar.symbol?_symbol]
    exact ih

theorem applyScalar_denotes {s : Substitution} (hs : s.IsPolynomial) {x : Scalar} {p : Poly}
    (hx : x.Denotes p) : (s.applyScalar x).Denotes (s.hom p) :=
  foldl_replacePart_denotes hs.pairs hx

/-- **A substitution of polynomials takes a tensor of polynomials to its image.** -/
theorem update_related {s : Substitution} (hs : s.IsPolynomial) {φ : Poly →ₐ[ℚ] Poly} {t u : Tensor}
    (h : t.Related (Scalar.Maps φ) u) :
    ∃ v, s.update u = .ok v ∧ t.Related (Scalar.Maps (s.hom.comp φ)) v := by
  have happlied : t.Related (Scalar.Maps (s.hom.comp φ)) (u.map s.applyScalar) :=
    h.map_right fun _ _ hab =>
      Scalar.maps_of_denotes hab.denotes_left (applyScalar_denotes hs hab.denotes_right)
  have hmap : t.Related (Scalar.Maps (s.hom.comp φ)) ((u.map s.applyScalar).map Scalar.expand) :=
    happlied.map_right fun _ _ hab => ⟨hab.left, (Scalar.expand_denotes hab.right).isPolynomial,
      (Scalar.expand_denotes hab.right).poly_eq.trans hab.poly_eq⟩
  refine ⟨_, ?_, hmap⟩
  unfold update apply
  rw [hs.guard]
  rfl

end Substitution

/-! ## Solutions -/

namespace SolvedForm

variable {ps : List Poly} {pairs : List (String × Scalar)}

theorem ofSolved_isPolynomial (h : SolvedForm ps pairs) : (Substitution.ofSolved pairs).IsPolynomial := by
  refine ⟨fun _ => rfl, fun pair hpair => ?_⟩
  obtain ⟨source, hsource, rfl⟩ := List.mem_map.mp hpair
  exact ⟨⟨_, rfl⟩, h.isPolynomial source hsource⟩

theorem ofSolved_replacements (pairs : List (String × Scalar)) :
    (Substitution.ofSolved pairs).replacements = pairs.map fun pair => (pair.1, pair.2.poly) := by
  unfold Substitution.replacements Substitution.ofSolved
  rw [List.map_map]
  refine List.map_congr_left fun pair _ => ?_
  simp only [Function.comp, Scalar.symbol?_symbol, Option.getD_some]

theorem mem_replacements {pair : String × Scalar} (hpair : pair ∈ pairs) :
    (pair.1, pair.2.poly) ∈ (Substitution.ofSolved pairs).replacements := by
  rw [ofSolved_replacements]
  exact List.mem_map_of_mem hpair

theorem isSolved (h : SolvedForm ps pairs) : IsSolved (Substitution.ofSolved pairs).replacements := by
  rw [ofSolved_replacements]
  refine ⟨?_, ?_⟩
  · rw [List.map_map]
    exact h.distinct
  · simp only [List.forall_mem_map]
    exact fun a ha b hb hmem => h.solved a ha b hb (Scalar.mem_symbols_of_mem_vars hmem)

/-- At every solution of the system the values are kept. -/
theorem eval_hom (h : SolvedForm ps pairs) {ρ : String → ℚ} (hρ : ∀ p ∈ ps, eval ρ p = 0) (q : Poly) :
    eval ρ ((Substitution.ofSolved pairs).hom q) = eval ρ q := by
  unfold Substitution.hom
  rw [ofSolved_replacements]
  refine eval_replaceAll (fun r hr => ?_) q
  obtain ⟨pair, hpair, rfl⟩ := List.mem_map.mp hr
  exact (h.solutions ρ).mp hρ pair hpair

theorem hom_X (h : SolvedForm ps pairs) {pair : String × Scalar} (hpair : pair ∈ pairs) :
    (Substitution.ofSolved pairs).hom (X pair.1) = pair.2.poly :=
  replaceAll_X h.isSolved (pair.1, pair.2.poly) (mem_replacements hpair)

/-- A solved form leaves none of the symbols on its left sides. -/
theorem not_mem_vars_hom (h : SolvedForm ps pairs) {pair : String × Scalar} (hpair : pair ∈ pairs) (p : Poly) :
    pair.1 ∉ ((Substitution.ofSolved pairs).hom p).vars :=
  not_mem_vars_replaceAll h.isSolved (pair.1, pair.2.poly) (mem_replacements hpair)

/-- Polynomials without the symbols of the system stay as they are. -/
theorem hom_eq_self (h : SolvedForm ps pairs) {q : Poly} (hq : ∀ p ∈ ps, ∀ n ∈ p.vars, n ∉ q.vars) :
    (Substitution.ofSolved pairs).hom q = q := by
  unfold Substitution.hom
  rw [ofSolved_replacements]
  refine replaceAll_eq_self fun r hr => ?_
  obtain ⟨pair, hpair, rfl⟩ := List.mem_map.mp hr
  obtain ⟨p, hp, hv⟩ := h.left pair hpair
  exact hq p hp _ hv

/-- No other symbols than those of the system are brought in. -/
theorem mem_vars_hom (h : SolvedForm ps pairs) {q : Poly} {n : String}
    (hn : n ∈ ((Substitution.ofSolved pairs).hom q).vars) : n ∈ q.vars ∨ ∃ p ∈ ps, n ∈ p.vars := by
  unfold Substitution.hom at hn
  rw [ofSolved_replacements] at hn
  refine (mem_vars_replaceAll hn).imp_right ?_
  rintro ⟨r, hr, hv⟩
  obtain ⟨pair, hpair, rfl⟩ := List.mem_map.mp hr
  exact h.right pair hpair n (Scalar.mem_symbols_of_mem_vars hv)

theorem totalDegree_hom_le_one (h : SolvedForm ps pairs) {q : Poly} (hq : q.totalDegree ≤ 1) :
    ((Substitution.ofSolved pairs).hom q).totalDegree ≤ 1 := by
  unfold Substitution.hom
  rw [ofSolved_replacements]
  refine totalDegree_replaceAll_le_one (fun r hr => ?_) hq
  obtain ⟨pair, hpair, rfl⟩ := List.mem_map.mp hr
  exact h.linear pair hpair

/-- **The solution of a system makes the system vanish.** -/
theorem hom_eq_zero (h : SolvedForm ps pairs) {p : Poly} (hp : p ∈ ps) :
    (Substitution.ofSolved pairs).hom p = 0 := by
  refine MvPolynomial.funext fun ρ => ?_
  rw [eval_algHom, map_zero]
  refine (h.solutions _).mpr (fun pair hpair => ?_) p hp
  have hright : (Substitution.ofSolved pairs).hom pair.2.poly = pair.2.poly := by
    unfold Substitution.hom
    rw [ofSolved_replacements]
    refine replaceAll_eq_self fun r hr hmem => ?_
    obtain ⟨other, hother, rfl⟩ := List.mem_map.mp hr
    exact h.solved other hother pair hpair (Scalar.mem_symbols_of_mem_vars hmem)
  rw [Scalar.valueAt, ← eval_algHom, hright, pullback, h.hom_X hpair]

end SolvedForm

namespace Substitution

theorem homogeneous_isPolynomial {inputs : List Scalar} (h : ∀ x ∈ inputs, x.isPolynomial = true)
    {s : Substitution} (hs : homogeneous inputs = .ok s) : s.IsPolynomial := by
  obtain ⟨-, pairs, rfl, hform⟩ := (homogeneous_solvesRows h).ok hs
  exact hform.ofSolved_isPolynomial

theorem merge_isPolynomial {ss : List Substitution} (h : ∀ s ∈ ss, s.IsPolynomial) {s : Substitution}
    (hs : merge ss = .ok s) : s.IsPolynomial := by
  by_cases hn : ss.length = 1
  · obtain ⟨s', rfl⟩ := List.length_eq_one_iff.mp hn
    cases hs
    exact h _ List.mem_cons_self
  · have hpairs : ∀ s ∈ ss, ∀ pair ∈ s.pairs,
        pair.1.isPolynomial = true ∧ pair.2.isPolynomial = true := by
      intro s hs pair hpair
      obtain ⟨⟨name, hname⟩, hright⟩ := (h s hs).pairs pair hpair
      exact ⟨hname ▸ (Scalar.symbol_denotes name).isPolynomial, hright⟩
    obtain ⟨-, pairs, rfl, hform⟩ := (merge_solvesRows hn hpairs).ok hs
    exact hform.ofSolved_isPolynomial

theorem applyScalar_rational {s : Substitution} (hs : s.IsPolynomial) (q : ℚ) :
    s.applyScalar (.rational q) = .rational q := by
  have hpart : ∀ pair ∈ s.pairs, (Scalar.rational q).replacePart pair.1 pair.2 = .rational q := by
    intro pair hpair
    obtain ⟨⟨name, hname⟩, -⟩ := hs.pairs pair hpair
    rw [hname]
    exact Scalar.replacePart_rational q name pair.2
  unfold applyScalar
  generalize s.pairs = pairs at hpart
  induction pairs with
  | nil => rfl
  | cons pair pairs ih =>
      rw [List.foldl_cons, hpart pair List.mem_cons_self]
      exact ih fun p hp => hpart p (List.mem_cons_of_mem _ hp)

end Substitution

end TensorEquations
