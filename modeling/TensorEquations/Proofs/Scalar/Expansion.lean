import TensorEquations.Proofs.Scalar.Monomial

/-!
# Expansion of polynomials

Expansion gives the sum of the distinct monomials of a polynomial.

* `IsFlat`, `IsExpanded` — sums of multiples of monomials, and sums of nonzero multiples of distinct
  monomials in written order.
* `collectTerms_isExpanded` — collecting gives distinct monomials.
* `Scalar.expand_denotes`, `Scalar.expand_isExpanded` — **expansion keeps the polynomial and gives its
  distinct monomials.**
* `IsExpanded.coeff_eq`, `Scalar.expand_isZero`, `Scalar.expand_linear` — the coefficients of an
  expanded sum, the zero test, and the terms of a polynomial of degree at most one.
* `IsExpanded.ext`, `Scalar.expand_eq_iff` — **expanded sums are told apart by their polynomials.**
-/

namespace TensorEquations

open MvPolynomial

/-! ## Sums of monomials -/

/-- Exact multiples of monomials. -/
def IsFlat (ts : List (Term Base)) : Prop :=
  ∀ t ∈ ts, t.coefficient.isExact = true ∧ IsMonomial t.factors

/-- Nonzero exact multiples of distinct monomials in written order. -/
structure IsExpanded (ts : List (Term Base)) : Prop where
  flat : IsFlat ts
  nonzero : ∀ t ∈ ts, t.coefficient.value ≠ 0
  sorted : (ts.map Term.factors).Pairwise fun fs gs => compareFactors fs gs = .lt

theorem IsFlat.isPolynomial {ts : List (Term Base)} (h : IsFlat ts) : ∀ t ∈ ts, t.IsPolynomial :=
  fun t ht => ⟨(h t ht).1, (h t ht).2.isPolynomial⟩

theorem IsExpanded.nil : IsExpanded [] :=
  ⟨List.forall_mem_nil _, List.forall_mem_nil _, List.Pairwise.nil⟩

theorem IsExpanded.tail {t : Term Base} {ts : List (Term Base)} (h : IsExpanded (t :: ts)) :
    IsExpanded ts :=
  ⟨fun u hu => h.flat u (List.mem_cons_of_mem _ hu),
    fun u hu => h.nonzero u (List.mem_cons_of_mem _ hu), (List.pairwise_cons.mp h.sorted).2⟩

theorem IsExpanded.head_lt {t : Term Base} {ts : List (Term Base)} (h : IsExpanded (t :: ts)) :
    ∀ fs ∈ ts.map Term.factors, compareFactors t.factors fs = .lt :=
  (List.pairwise_cons.mp h.sorted).1

theorem IsExpanded.cons {t : Term Base} {ts : List (Term Base)}
    (hc : t.coefficient.isExact = true) (hv : t.coefficient.value ≠ 0) (hm : IsMonomial t.factors)
    (hlt : ∀ fs ∈ ts.map Term.factors, compareFactors t.factors fs = .lt) (h : IsExpanded ts) :
    IsExpanded (t :: ts) :=
  ⟨by simpa [IsFlat] using ⟨⟨hc, hm⟩, h.flat⟩, by simpa using ⟨hv, h.nonzero⟩,
    List.pairwise_cons.mpr ⟨hlt, h.sorted⟩⟩

/-! ## Collecting terms -/

theorem insertTerm_factors (t : Term Base) : ∀ (us : List (Term Base)),
    ∀ fs ∈ (insertTerm t us).map Term.factors, fs = t.factors ∨ fs ∈ us.map Term.factors
  | [], fs, h => by simpa [insertTerm] using h
  | u :: us, fs, h => by
    unfold insertTerm at h
    split at h
    · simpa using h
    · rcases List.mem_cons.mp h with rfl | h
      · exact .inr List.mem_cons_self
      · exact (insertTerm_factors t us fs h).imp_right (List.mem_cons_of_mem _)
    · simp only at h
      split at h
      · exact .inr (List.mem_cons_of_mem _ h)
      · exact (List.mem_cons.mp h).imp_right (List.mem_cons_of_mem _)

theorem insertTerm_isExpanded {t : Term Base} (hc : t.coefficient.isExact = true)
    (hv : t.coefficient.value ≠ 0) (hm : IsMonomial t.factors) : ∀ {us : List (Term Base)},
    IsExpanded us → IsExpanded (insertTerm t us)
  | [], h => h.cons hc hv hm fun _ hf => (nomatch hf)
  | u :: us, h => by
    have hu := h.flat u List.mem_cons_self
    have htp : t.IsPolynomial := ⟨hc, hm.isPolynomial⟩
    have hup : u.IsPolynomial := h.flat.isPolynomial u List.mem_cons_self
    unfold insertTerm
    rw [Term.order_eq htp hup]
    rcases compareFactors_total hm.powers hu.2.powers with ho | ⟨ho, hf⟩ | ⟨ho, ho'⟩ <;> rw [ho]
    · refine IsExpanded.cons hc hv hm ?_ h
      intro fs hfs
      rcases List.mem_cons.mp hfs with rfl | hfs
      · exact ho
      · obtain ⟨v, hv', rfl⟩ := List.mem_map.mp hfs
        exact compareFactors_trans hm.powers hu.2.powers (h.tail.flat v hv').2.powers ho
          (h.head_lt _ hfs)
    · obtain ⟨a, ha⟩ : ∃ a, t.coefficient = .exact a := ⟨_, Number.eq_exact_of_isExact hc⟩
      obtain ⟨b, hb⟩ : ∃ b, u.coefficient = .exact b := ⟨_, Number.eq_exact_of_isExact hu.1⟩
      have hsum : addCoefficients u t = .exact (b + a) := by
        simp only [addCoefficients, ha, hb]; rfl
      simp only [hsum]
      split
      · exact h.tail
      · rename_i hz
        rw [Number.exact_vanishes] at hz
        refine IsExpanded.cons rfl hz hm ?_ h.tail
        intro fs hfs
        show compareFactors t.factors fs = .lt
        rw [hf]
        exact h.head_lt fs hfs
    · refine IsExpanded.cons hu.1 (h.nonzero u List.mem_cons_self) hu.2 ?_
        (insertTerm_isExpanded hc hv hm h.tail)
      intro fs hfs
      rcases insertTerm_factors t us fs hfs with rfl | hfs
      · exact ho'
      · exact h.head_lt fs hfs

/-- **Collecting multiples of monomials gives distinct monomials.** -/
theorem collectTerms_isExpanded {ts : List (Term Base)} (h : IsFlat ts) :
    IsExpanded (collectTerms ts) := by
  unfold collectTerms
  suffices ∀ (ts sum : List (Term Base)), IsFlat ts → (∀ t ∈ ts, t.coefficient.value ≠ 0) →
      IsExpanded sum → IsExpanded (ts.foldl (fun sum t => insertTerm t sum) sum) by
    refine this _ [] (fun t ht => h t (List.mem_of_mem_filter ht)) (fun t ht h0 => ?_) IsExpanded.nil
    have hv := (List.mem_filter.mp ht).2
    rw [Number.eq_exact_of_isExact (h t (List.mem_of_mem_filter ht)).1, h0] at hv
    exact absurd hv (by decide)
  intro ts
  induction ts with
  | nil => intro sum _ _ hs; exact hs
  | cons t ts ih =>
      intro sum hf hv hs
      have ht := hf t List.mem_cons_self
      exact ih _ (fun u hu => hf u (List.mem_cons_of_mem _ hu))
        (fun u hu => hv u (List.mem_cons_of_mem _ hu))
        (insertTerm_isExpanded ht.1 (hv t List.mem_cons_self) ht.2 hs)

/-! ## Multiplying out -/

theorem Term.mul_isFlat {t u : Term Base} (ht : t.coefficient.isExact = true ∧ IsMonomial t.factors)
    (hu : u.coefficient.isExact = true ∧ IsMonomial u.factors) :
    (t.mul u).coefficient.isExact = true ∧ IsMonomial (t.mul u).factors := by
  refine ⟨?_, collectFactors_isMonomial fun f hf => ?_⟩
  · rw [Term.mul, Number.eq_exact_of_isExact ht.1, Number.eq_exact_of_isExact hu.1]
    rfl
  · exact (List.mem_append.mp hf).elim (ht.2.powers f) (hu.2.powers f)

theorem Term.mul_poly {t u : Term Base} (ht : t.IsPolynomial) (hu : u.IsPolynomial) :
    (t.mul u).poly = t.poly * u.poly := by
  have hf : ∀ f ∈ t.factors ++ u.factors, f.IsPolynomial :=
    fun f hf => (List.mem_append.mp hf).elim (ht.2 f) (hu.2 f)
  have hc : (t.coefficient * u.coefficient).value = t.coefficient.value * u.coefficient.value := by
    rw [Number.eq_exact_of_isExact ht.1, Number.eq_exact_of_isExact hu.1]
    rfl
  unfold Term.poly Term.mul
  rw [(collectFactors_denotes hf).poly_eq, factorsPoly_append, hc, C_mul]
  ring

theorem isFlat_products {ts us : List (Term Base)} (ht : IsFlat ts) (hu : IsFlat us) :
    IsFlat (ts.flatMap fun t => us.map t.mul) := by
  intro v hv
  obtain ⟨t, ht', hv⟩ := List.mem_flatMap.mp hv
  obtain ⟨u, hu', rfl⟩ := List.mem_map.mp hv
  exact Term.mul_isFlat (ht t ht') (hu u hu')

theorem termsPoly_map_mul {t : Term Base} (ht : t.IsPolynomial) : ∀ {us : List (Term Base)},
    (∀ u ∈ us, u.IsPolynomial) → termsPoly (us.map t.mul) = t.poly * termsPoly us
  | [], _ => by simp
  | u :: us, h => by
    rw [List.map_cons, termsPoly_cons, termsPoly_cons, Term.mul_poly ht (h u List.mem_cons_self),
      termsPoly_map_mul ht fun v hv => h v (List.mem_cons_of_mem _ hv), mul_add]

theorem termsPoly_products : ∀ {ts us : List (Term Base)}, (∀ t ∈ ts, t.IsPolynomial) →
    (∀ u ∈ us, u.IsPolynomial) →
    termsPoly (ts.flatMap fun t => us.map t.mul) = termsPoly ts * termsPoly us
  | [], _, _, _ => by simp
  | t :: ts, us, ht, hu => by
    rw [List.flatMap_cons, termsPoly_append, termsPoly_map_mul (ht t List.mem_cons_self) hu,
      termsPoly_products (fun v hv => ht v (List.mem_cons_of_mem _ hv)) hu, termsPoly_cons, add_mul]

/-- A sum of multiples of monomials and its polynomial. -/
structure FlatDenote (ts : List (Term Base)) (p : Poly) : Prop where
  flat : IsFlat ts
  poly_eq : termsPoly ts = p

theorem FlatDenote.collect {ts : List (Term Base)} {p : Poly} (h : FlatDenote ts p) :
    FlatDenote (collectTerms ts) p :=
  ⟨(collectTerms_isExpanded h.flat).flat,
    (collectTerms_denotes h.flat.isPolynomial).poly_eq.trans h.poly_eq⟩

theorem FlatDenote.number {c : Number} (h : c.isExact = true) : FlatDenote [⟨c, []⟩] (C c.value) :=
  ⟨by simpa [IsFlat] using ⟨h, IsMonomial.nil⟩, by simp [Term.poly]⟩

theorem FlatDenote.distribute {ts us : List (Term Base)} {p q : Poly} (ht : FlatDenote ts p)
    (hu : FlatDenote us q) : FlatDenote (distribute ts us) (p * q) := by
  refine FlatDenote.collect ⟨isFlat_products ht.flat hu.flat, ?_⟩
  rw [termsPoly_products ht.flat.isPolynomial hu.flat.isPolynomial, ht.poly_eq, hu.poly_eq]

theorem FlatDenote.distributePower {ts : List (Term Base)} {p : Poly} (h : FlatDenote ts p) :
    ∀ n, FlatDenote (distributePower ts n) (p ^ n)
  | 0 => by
    rw [pow_zero, ← C_1]
    exact FlatDenote.number rfl
  | n + 1 => by
    rw [pow_succ]
    exact (h.distributePower n).distribute h

theorem foldl_distribute {value : Factor Base → List (Term Base)} : ∀ {fs : List (Factor Base)}
    {product : List (Term Base)} {p : Poly}, FlatDenote product p →
    (∀ f ∈ fs, FlatDenote (value f) (f.base.poly ^ f.exponent.toNat)) →
    FlatDenote (fs.foldl (fun product f => distribute product (value f)) product)
      (p * factorsPoly fs)
  | [], _, p, h, _ => by simpa using h
  | f :: fs, product, p, h, hf => by
    rw [factorsPoly_cons, ← mul_assoc]
    exact foldl_distribute (h.distribute (hf f List.mem_cons_self))
      fun g hg => hf g (List.mem_cons_of_mem _ hg)

/-- The terms of a base, multiplied out. -/
def Base.multiplyOut : Base → List (Term Base) :=
  Base.fold (fun name => [⟨1, [⟨.symbol name, 1⟩]⟩]) fun ts =>
    collectTerms (ts.flatMap distributeProduct)

theorem distributeProduct_denotes {t : Term Base} (ht : t.IsPolynomial)
    (h : ∀ f ∈ t.factors, FlatDenote f.base.multiplyOut f.base.poly) :
    FlatDenote (distributeProduct (t.map Base.multiplyOut)) t.poly := by
  unfold distributeProduct
  rw [show (t.map Base.multiplyOut).factors = t.factors.map (Factor.map Base.multiplyOut) from rfl,
    List.foldl_map]
  exact foldl_distribute (FlatDenote.number ht.1) fun f hf => (h f hf).distributePower _

theorem flatMap_distributeProduct_denotes : ∀ {ts : List (Term Base)},
    (∀ t ∈ ts, t.IsPolynomial) →
    (∀ t ∈ ts, ∀ f ∈ t.factors, FlatDenote f.base.multiplyOut f.base.poly) →
    FlatDenote ((ts.map (Term.map Base.multiplyOut)).flatMap distributeProduct) (termsPoly ts)
  | [], _, _ => ⟨fun _ ht => (nomatch ht), rfl⟩
  | t :: ts, ht, h => by
    have h₁ := distributeProduct_denotes (ht t List.mem_cons_self) (h t List.mem_cons_self)
    have h₂ := flatMap_distributeProduct_denotes (fun u hu => ht u (List.mem_cons_of_mem _ hu))
      fun u hu => h u (List.mem_cons_of_mem _ hu)
    refine ⟨?_, by rw [List.map_cons, List.flatMap_cons, termsPoly_append, h₁.poly_eq, h₂.poly_eq,
      termsPoly_cons]⟩
    intro u hu
    exact (List.mem_append.mp hu).elim (h₁.flat u) (h₂.flat u)

theorem Base.multiplyOut_denotes (b : Base) (h : b.isPolynomial = true) :
    FlatDenote b.multiplyOut b.poly := by
  induction b using Base.induction with
  | symbol name =>
      refine ⟨?_, by simp [multiplyOut, Base.fold, Term.poly, Number.one_eq, Number.value]⟩
      intro t ht
      rw [List.mem_singleton.mp ht]
      exact ⟨rfl, by simp [Factor.IsPower, Factor.name], List.pairwise_singleton _ _⟩
  | group ts ih =>
      have hts := Base.isPolynomial_group.mp h
      rw [multiplyOut, Base.fold, Base.foldTerms_eq_map, Base.poly_group]
      exact (flatMap_distributeProduct_denotes hts fun t ht f hf =>
        ih t ht f hf ((hts t ht).2 f hf).2).collect

namespace Scalar

theorem flatMap_products_denotes {s : Scalar} (h : s.isPolynomial = true) :
    FlatDenote ((s.terms.map (Term.map Base.multiplyOut)).flatMap distributeProduct) s.poly := by
  have hts := isPolynomial_iff.mp h
  exact flatMap_distributeProduct_denotes hts fun t ht f hf =>
    f.base.multiplyOut_denotes ((hts t ht).2 f hf).2

theorem expand_terms {s : Scalar} (h : s.isPolynomial = true) : s.expand.terms =
    collectTerms ((s.terms.map (Term.map Base.multiplyOut)).flatMap distributeProduct) := by
  unfold expand
  rw [if_pos h]
  unfold multiplyOut fold
  rw [Base.foldTerms_eq_map]
  rfl

/-- **Expansion keeps the polynomial.** -/
theorem expand_denotes {s : Scalar} (h : s.isPolynomial = true) : s.expand.Denotes s.poly := by
  have hd := (flatMap_products_denotes h).collect
  rw [← expand_terms h] at hd
  exact (TermsDenote.mk hd.flat.isPolynomial hd.poly_eq).scalar

/-- **Expansion gives nonzero multiples of distinct monomials.** -/
theorem expand_isExpanded {s : Scalar} (h : s.isPolynomial = true) : IsExpanded s.expand.terms := by
  rw [expand_terms h]
  exact collectTerms_isExpanded (flatMap_products_denotes h).flat

theorem rational_expand (q : ℚ) : (rational q).expand = rational q := by
  have hterms := expand_terms (rational_denotes q).isPolynomial
  rw [rational_eq] at hterms ⊢
  split
  · rfl
  · rename_i h
    rw [if_neg h] at hterms
    have hvanishes : (Number.exact q).vanishes = false := by
      simpa [Number.vanishes, Number.isZero] using h
    have hcollect : collectTerms [⟨.exact q, []⟩] = [⟨.exact q, []⟩] := by
      rw [collectTerms, List.filter_cons, hvanishes]
      rfl
    exact congrArg Scalar.mk (hterms.trans hcollect)

end Scalar

/-! ## Coefficients -/

theorem Term.poly_eq_monomial {t : Term Base} (h : ∀ f ∈ t.factors, f.IsPower) :
    t.poly = monomial (exponents t.factors) t.coefficient.value := by
  rw [Term.poly, factorsPoly_eq_monomial h, C_mul_monomial, mul_one]

theorem coeff_termsPoly_eq_zero {m : String →₀ ℕ} : ∀ {ts : List (Term Base)}, IsFlat ts →
    (∀ t ∈ ts, exponents t.factors ≠ m) → coeff m (termsPoly ts) = 0
  | [], _, _ => by simp
  | t :: ts, h, hm => by
    rw [termsPoly_cons, coeff_add, Term.poly_eq_monomial (h t List.mem_cons_self).2.powers,
      coeff_monomial, if_neg (hm t List.mem_cons_self), zero_add]
    exact coeff_termsPoly_eq_zero (fun u hu => h u (List.mem_cons_of_mem _ hu))
      fun u hu => hm u (List.mem_cons_of_mem _ hu)

theorem IsExpanded.head_exponents_ne {t : Term Base} {ts : List (Term Base)}
    (h : IsExpanded (t :: ts)) : ∀ u ∈ ts, exponents u.factors ≠ exponents t.factors := by
  intro u hu he
  have ht := (h.flat t List.mem_cons_self).2
  have hlt := h.head_lt _ (List.mem_map_of_mem hu)
  rw [(h.tail.flat u hu).2.eq_of_exponents ht he, compareFactors_self ht.powers] at hlt
  cases hlt

/-- **The coefficients of an expanded sum are those of its polynomial.** -/
theorem IsExpanded.coeff_eq : ∀ {ts : List (Term Base)}, IsExpanded ts → ∀ t ∈ ts,
    coeff (exponents t.factors) (termsPoly ts) = t.coefficient.value
  | u :: us, h, t, ht => by
    have hu := Term.poly_eq_monomial (h.flat u List.mem_cons_self).2.powers
    rw [termsPoly_cons, coeff_add, hu, coeff_monomial]
    rcases List.mem_cons.mp ht with rfl | ht
    · rw [if_pos rfl, coeff_termsPoly_eq_zero h.tail.flat h.head_exponents_ne, add_zero]
    · rw [if_neg fun he => h.head_exponents_ne t ht he.symm, h.tail.coeff_eq t ht, zero_add]

theorem IsExpanded.mem_support {ts : List (Term Base)} (h : IsExpanded ts) {t : Term Base}
    (ht : t ∈ ts) : exponents t.factors ∈ (termsPoly ts).support := by
  rw [mem_support_iff, h.coeff_eq t ht]
  exact h.nonzero t ht

theorem IsExpanded.eq_nil_iff {ts : List (Term Base)} (h : IsExpanded ts) :
    ts = [] ↔ termsPoly ts = 0 := by
  constructor
  · rintro rfl
    rfl
  · intro hz
    refine List.eq_nil_iff_forall_not_mem.mpr fun t ht => ?_
    have := h.mem_support ht
    rw [hz, support_zero] at this
    exact absurd this (Finset.notMem_empty _)

/-- **A polynomial expands to no term exactly if it is zero.** -/
theorem Scalar.expand_isZero {s : Scalar} (h : s.isPolynomial = true) :
    s.expand.isZero = true ↔ s.poly = 0 := by
  rw [Scalar.isZero, List.isEmpty_iff, (expand_isExpanded h).eq_nil_iff]
  exact Iff.of_eq (congrArg (· = 0) (expand_denotes h).poly_eq)

/-! ## Normal form -/

/-- A monomial that occurs in the polynomial occurs in the sum. -/
theorem IsExpanded.mem_factors {ts us : List (Term Base)} (h : IsExpanded ts) (hu : IsExpanded us)
    (heq : termsPoly ts = termsPoly us) {t : Term Base} (ht : t ∈ ts) :
    t.factors ∈ us.map Term.factors := by
  have hsupport := h.mem_support ht
  rw [heq, mem_support_iff] at hsupport
  obtain ⟨u, hmem, he⟩ : ∃ u ∈ us, exponents u.factors = exponents t.factors := by
    by_contra hno
    exact hsupport (coeff_termsPoly_eq_zero hu.flat fun u hmem he => hno ⟨u, hmem, he⟩)
  rw [← (hu.flat u hmem).2.eq_of_exponents (h.flat t ht).2 he]
  exact List.mem_map_of_mem hmem

/-- The first monomial of an expanded sum does not come before that of an equal one. -/
theorem IsExpanded.head_not_lt {t u : Term Base} {ts us : List (Term Base)} (h : IsExpanded (t :: ts))
    (hu : IsExpanded (u :: us)) (heq : termsPoly (t :: ts) = termsPoly (u :: us)) :
    compareFactors t.factors u.factors ≠ .lt := by
  intro hlt
  have ht := (h.flat t List.mem_cons_self).2.powers
  have hu' := (hu.flat u List.mem_cons_self).2.powers
  have hself := compareFactors_self ht
  rcases List.mem_cons.mp (h.mem_factors hu heq List.mem_cons_self) with hfirst | hlater
  · rw [← hfirst, hself] at hlt
    cases hlt
  · rw [compareFactors_trans ht hu' ht hlt (hu.head_lt _ hlater)] at hself
    cases hself

/-- **Expanded sums of one polynomial are equal**, term by term. -/
theorem IsExpanded.ext : ∀ {ts us : List (Term Base)}, IsExpanded ts → IsExpanded us →
    termsPoly ts = termsPoly us → ts = us
  | [], us, _, hu, heq => (hu.eq_nil_iff.mpr heq.symm).symm
  | t :: ts, [], h, _, heq => h.eq_nil_iff.mpr heq
  | t :: ts, u :: us, h, hu, heq => by
    have ht := h.flat t List.mem_cons_self
    have hu' := hu.flat u List.mem_cons_self
    have hfactors : t.factors = u.factors := by
      rcases compareFactors_total ht.2.powers hu'.2.powers with hlt | ⟨-, hfactors⟩ | ⟨-, hgt⟩
      · exact absurd hlt (h.head_not_lt hu heq)
      · exact hfactors
      · exact absurd hgt (hu.head_not_lt h heq.symm)
    have hcoefficient : t.coefficient = u.coefficient := by
      rw [Number.eq_exact_of_isExact ht.1, Number.eq_exact_of_isExact hu'.1,
        ← h.coeff_eq t List.mem_cons_self, ← hu.coeff_eq u List.mem_cons_self, heq, hfactors]
    obtain rfl : t = u := by
      cases t
      cases u
      cases hfactors
      cases hcoefficient
      rfl
    rw [termsPoly_cons, termsPoly_cons, add_right_inj] at heq
    rw [h.tail.ext hu.tail heq]

/-- **Polynomials expand to the same scalar exactly if they are the same.** -/
theorem Scalar.expand_eq_iff {a b : Scalar} (ha : a.isPolynomial = true) (hb : b.isPolynomial = true) :
    a.expand = b.expand ↔ a.poly = b.poly := by
  rw [← (expand_denotes ha).poly_eq, ← (expand_denotes hb).poly_eq]
  refine ⟨congrArg Scalar.poly, fun h => ?_⟩
  exact congrArg Scalar.mk ((expand_isExpanded ha).ext (expand_isExpanded hb) h)

/-- A sum of distinct monomials in written order is expanded already. -/
theorem Scalar.expand_eq_self {s : Scalar} (hs : s.isPolynomial = true) (h : IsExpanded s.terms) :
    s.expand = s :=
  congrArg Scalar.mk ((expand_isExpanded hs).ext h (expand_denotes hs).poly_eq)

/-! ## Degree -/

theorem totalDegree_termsPoly_le {n : ℕ} : ∀ {ts : List (Term Base)},
    (∀ t ∈ ts, t.poly.totalDegree ≤ n) → (termsPoly ts).totalDegree ≤ n
  | [], _ => by simp
  | t :: ts, h => by
    rw [termsPoly_cons]
    exact (totalDegree_add _ _).trans (max_le (h t List.mem_cons_self)
      (totalDegree_termsPoly_le fun u hu => h u (List.mem_cons_of_mem _ hu)))

/-- **The degree of an expanded sum is at most one exactly if its terms are numbers and multiples of
symbols.** -/
theorem IsExpanded.totalDegree_le_one {ts : List (Term Base)} (h : IsExpanded ts) :
    (termsPoly ts).totalDegree ≤ 1 ↔
      ∀ t ∈ ts, t.factors = [] ∨ ∃ name, t.factors = [⟨.symbol name, 1⟩] := by
  constructor
  · intro hd t ht
    rw [← exponents_degree_le_one (h.flat t ht).2.powers]
    exact (le_totalDegree (h.mem_support ht)).trans hd
  · intro hf
    refine totalDegree_termsPoly_le fun t ht => ?_
    have hp := (h.flat t ht).2.powers
    rw [Term.poly_eq_monomial hp]
    exact (totalDegree_monomial_le _ _).trans ((exponents_degree_le_one hp).mpr (hf t ht))

end TensorEquations
