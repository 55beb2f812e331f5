import TensorEquations.Proofs.Scalar.Expansion

/-!
# What automatic normal form multiplies out

Sums and products in automatic normal form are expanded as they stand, as long as no sum is a factor of one of
their terms.

* `Scalar.IsTerm` — a multiple of a monomial, or zero.
* `IsTerm.mul`, `add_isExpanded`, `rational_mul_isExpanded` — **products of such scalars are such scalars, and sums
  and rational multiples of expanded sums are expanded sums.**
* `mul_isZero` — a product with a factor that is zero is zero.
* `isZero_iff_of_isExpanded` — **an expanded sum is zero exactly if its polynomial is.**
-/

namespace TensorEquations

open MvPolynomial

/-- Multiples of an expanded sum. -/
theorem IsExpanded.scale {ts : List (Term Base)} (h : IsExpanded ts) {q : ℚ} (hq : q ≠ 0) :
    IsExpanded (ts.map (Term.scale q)) := by
  have hscale : ∀ t ∈ ts, Term.scale q t = ⟨.exact (q * t.coefficient.value), t.factors⟩ :=
    fun t ht => Term.scale_of_isExact (h.flat t ht).1
  have hfactors : (ts.map (Term.scale q)).map Term.factors = ts.map Term.factors := by
    rw [List.map_map]
    rfl
  refine ⟨?_, ?_, hfactors ▸ h.sorted⟩
  · intro u hu
    obtain ⟨t, ht, rfl⟩ := List.mem_map.mp hu
    rw [hscale t ht]
    exact ⟨rfl, (h.flat t ht).2⟩
  · intro u hu
    obtain ⟨t, ht, rfl⟩ := List.mem_map.mp hu
    rw [hscale t ht]
    exact mul_ne_zero hq (h.nonzero t ht)

namespace Scalar

/-! ## Multiples of monomials -/

theorem rational_isExpanded (q : ℚ) : IsExpanded (rational q).terms := by
  unfold rational number
  split
  · exact IsExpanded.nil
  · rename_i h
    refine IsExpanded.cons rfl ?_ IsMonomial.nil (fun _ hf => (nomatch hf)) IsExpanded.nil
    intro h0
    exact h (by rw [show q = 0 from h0]; rfl)

/-- A multiple of a monomial, or zero. -/
structure IsTerm (s : Scalar) : Prop where
  expanded : IsExpanded s.terms
  single : s.isSum = false

theorem rational_isTerm (q : ℚ) : (rational q).IsTerm := ⟨rational_isExpanded q, rational_isSum q⟩

theorem symbol_isTerm (name : String) : (symbol name).IsTerm := by
  refine ⟨?_, rfl⟩
  exact IsExpanded.cons rfl one_ne_zero ⟨by simp [Factor.IsPower, Factor.name], List.pairwise_singleton _ _⟩
    (fun _ hf => (nomatch hf)) IsExpanded.nil

theorem IsTerm.asProduct {s : Scalar} (h : s.IsTerm) :
    s.asProduct.1.isExact = true ∧ IsMonomial s.asProduct.2 := by
  rcases s with ⟨_ | ⟨t, _ | ⟨u, ts⟩⟩⟩
  · exact ⟨rfl, IsMonomial.nil⟩
  · exact h.expanded.flat t List.mem_cons_self
  · exact absurd h.single (by simp [isSum])

theorem ofFactors_isTerm {q : ℚ} {fs : List (Factor Base)} (h : IsMonomial fs) :
    (ofFactors (.exact q) fs).IsTerm := by
  by_cases hq : q = 0
  · rw [hq]
    exact ⟨IsExpanded.nil, rfl⟩
  · have hsingle : (⟨[⟨.exact q, fs⟩]⟩ : Scalar).IsTerm :=
      ⟨IsExpanded.cons rfl hq h (fun _ hf => (nomatch hf)) IsExpanded.nil, rfl⟩
    have hz : (Number.exact q).isZero = false := by simpa [Number.isZero] using hq
    unfold ofFactors
    simp only [Number.isUndefined, hz, Bool.false_eq_true, if_false]
    split
    · exact hsingle
    · exact absurd (h.powers _ List.mem_cons_self).1 (by simp)
    · exact hsingle

theorem multiply_isTerm {xs : List Scalar} (h : ∀ x ∈ xs, x.IsTerm) : (multiply xs).IsTerm := by
  have hfactors : IsMonomial (collectFactors (xs.flatMap (·.asProduct.2))) := by
    refine collectFactors_isMonomial fun f hf => ?_
    obtain ⟨x, hx, hf⟩ := List.mem_flatMap.mp hf
    exact (h x hx).asProduct.2.powers f hf
  rw [multiply_eq fun x hx => (h x hx).asProduct.1, ofProduct_eq hfactors.isPolynomial]
  exact ofFactors_isTerm hfactors

/-- **The product of two multiples of monomials is one.** -/
theorem IsTerm.mul {x y : Scalar} (hx : x.IsTerm) (hy : y.IsTerm) : (x * y).IsTerm := by
  have hf : ∀ z ∈ [x, y].filter (· ≠ 1), z.IsTerm := fun z hz => by
    rcases List.mem_cons.mp (List.mem_of_mem_filter hz) with rfl | hz
    · exact hx
    · exact List.mem_singleton.mp hz ▸ hy
  show (product [x, y]).IsTerm
  unfold product
  split
  · exact rational_isTerm 1
  · rename_i z hs
    exact hf z (hs ▸ List.mem_singleton_self z)
  · rename_i u v hs
    rw [hs] at hf
    rw [distribute?_of_isSum_eq_false (hf v (by simp)).single, distribute?_of_isSum_eq_false (hf u (by simp)).single]
    exact multiply_isTerm hf
  · exact multiply_isTerm hf

theorem neg_isExpanded {x : Scalar} (h : IsExpanded x.terms) : IsExpanded (-x).terms := h.scale (by decide)

theorem neg_isSum (x : Scalar) : (-x).isSum = x.isSum := by
  show decide (2 ≤ (x.terms.map (Term.scale (-1))).length) = _
  rw [List.length_map]
  rfl

theorem IsTerm.neg {x : Scalar} (h : x.IsTerm) : (-x).IsTerm :=
  ⟨neg_isExpanded h.expanded, (neg_isSum x).trans h.single⟩

/-! ## Sums -/

theorem ofTerms_isExpanded {ts : List (Term Base)} (h : IsFlat ts) :
    IsExpanded (ofTerms ts).terms := by
  have hx := collectTerms_isExpanded h
  unfold ofTerms
  simp only [any_isUndefined_eq_false hx.flat.isPolynomial, Bool.false_eq_true, if_false]
  exact hx

theorem sum_isExpanded {xs : List Scalar} (h : ∀ x ∈ xs, IsExpanded x.terms) :
    IsExpanded (sum xs).terms := by
  have hf : ∀ x ∈ xs.filter (!·.isZero), IsExpanded x.terms :=
    fun x hx => h x (List.mem_of_mem_filter hx)
  unfold sum
  split
  · exact IsExpanded.nil
  · rename_i x hs
    exact hf x (by simp [hs])
  · simp only [List.partition_eq_filter_filter, ← List.flatMap_append]
    refine ofTerms_isExpanded fun t ht => ?_
    obtain ⟨x, hx, ht⟩ := List.mem_flatMap.mp ht
    have hx' : x ∈ xs.filter (!·.isZero) :=
      (List.mem_append.mp hx).elim List.mem_of_mem_filter List.mem_of_mem_filter
    exact (hf x hx').flat t ht

theorem add_isExpanded {x y : Scalar} (hx : IsExpanded x.terms) (hy : IsExpanded y.terms) :
    IsExpanded (x + y).terms := by
  show IsExpanded (add x y).terms
  unfold add
  split
  · rename_i c d hc hd
    have hx' := value_denotes (isPolynomial_iff.mpr hx.flat.isPolynomial)
    have hy' := value_denotes (isPolynomial_iff.mpr hy.flat.isPolynomial)
    obtain ⟨p, rfl, -⟩ := hx'.number_of hc
    obtain ⟨q, rfl, -⟩ := hy'.number_of hd
    exact rational_isExpanded (p + q)
  · refine sum_isExpanded fun z hz => ?_
    rcases List.mem_cons.mp hz with rfl | hz
    · exact hx
    · exact List.mem_singleton.mp hz ▸ hy

/-! ## Products with zero -/

theorem distribute?_of_isZero {x y : Scalar} (h : x.isZero = true ∨ y.isZero = true) : distribute? x y = none := by
  rcases h with hx | hy
  · have hnumber : x.number? = some 0 := by
      rw [number?, List.isEmpty_iff.mp hx]
    simp [distribute?, hnumber, Number.zero_eq]
  · refine distribute?_of_isSum_eq_false ?_ x
    rw [isSum, List.isEmpty_iff.mp hy]
    rfl

theorem multiply_isZero {xs : List Scalar} (h : ∀ x ∈ xs, x.isPolynomial = true) {z : Scalar} (hz : z ∈ xs)
    (hzero : z.isZero = true) : (multiply xs).isZero = true := by
  have hproduct := fun x hx => (value_denotes (h x hx)).asProduct
  have hexact : ∀ x ∈ xs, x.asProduct.1.isExact = true := by
    intro x hx
    obtain ⟨q, hq, -, -⟩ := hproduct x hx
    rw [hq]
    rfl
  have hfactors : ∀ f ∈ xs.flatMap (·.asProduct.2), f.IsPolynomial := by
    intro f hf
    obtain ⟨x, hx, hf⟩ := List.mem_flatMap.mp hf
    obtain ⟨-, -, hp, -⟩ := hproduct x hx
    exact definesFactor_polynomials.mp (hp f hf)
  have hnumber : (xs.map (·.asProduct.1.value)).prod = 0 := by
    refine List.prod_eq_zero (List.mem_map.mpr ⟨z, hz, ?_⟩)
    rw [asProduct, List.isEmpty_iff.mp hzero]
    rfl
  rw [multiply_eq hexact, hnumber, ofProduct_eq (collectFactors_denotes hfactors).isPolynomial]
  rfl

/-- **A product with a factor that is zero is zero.** -/
theorem mul_isZero {x y : Scalar} (hx : x.isPolynomial = true) (hy : y.isPolynomial = true)
    (h : x.isZero = true ∨ y.isZero = true) : (x * y).isZero = true := by
  obtain ⟨z, hz, hzero⟩ : ∃ z ∈ [x, y], z.isZero = true := by simpa using h
  have hpolynomial : ∀ z ∈ [x, y].filter (· ≠ 1), z.isPolynomial = true := fun z hz => by
    rcases List.mem_cons.mp (List.mem_of_mem_filter hz) with rfl | hz
    · exact hx
    · exact List.mem_singleton.mp hz ▸ hy
  have hmem : z ∈ [x, y].filter (· ≠ 1) := by
    refine List.mem_filter.mpr ⟨hz, decide_eq_true ?_⟩
    rintro rfl
    cases hzero
  show (product [x, y]).isZero = true
  unfold product
  split
  · rename_i hs
    rw [hs] at hmem
    cases hmem
  · rename_i w hs
    rw [hs, List.mem_singleton] at hmem
    exact hmem ▸ hzero
  · rename_i u v hs
    rw [hs] at hmem hpolynomial
    have hzeros : u.isZero = true ∨ v.isZero = true := by
      rcases List.mem_cons.mp hmem with rfl | hmem
      · exact .inl hzero
      · exact .inr (List.mem_singleton.mp hmem ▸ hzero)
    rw [distribute?_of_isZero hzeros, distribute?_of_isZero hzeros.symm]
    exact multiply_isZero hpolynomial hmem hzero
  · exact multiply_isZero hpolynomial hmem hzero

/-! ## Rational multiples -/

theorem distribute?_rational {q : ℚ} (hq : q ≠ 0) {y : Scalar} (hy : y.isSum = true) :
    distribute? (rational q) y = some ⟨y.terms.map (Term.scale q)⟩ := by
  simp [distribute?, number?_rational, hq, hy]

/-- A rational multiple of a sum, the number on either side. -/
theorem product_isExpanded {q : ℚ} (hq : q ≠ 0) {y : Scalar} (hy : IsExpanded y.terms) (hsum : y.isSum = true)
    {xs : List Scalar} (hxs : xs = [rational q, y] ∨ xs = [y, rational q]) : IsExpanded (product xs).terms := by
  have hone : y ≠ 1 := by
    rintro rfl
    cases hsum
  by_cases h1 : q = 1
  · have hfilter : xs.filter (· ≠ 1) = [y] := by
      rcases hxs with rfl | rfl <;> simp [h1, hone, show rational 1 = 1 from rfl]
    rw [product, hfilter]
    exact hy
  · have hfilter : xs.filter (· ≠ 1) = xs := by
      rcases hxs with rfl | rfl <;> simp [rational_ne_one h1, hone]
    rw [product, hfilter]
    rcases hxs with rfl | rfl
    · simp only [distribute?_rational hq hsum]
      exact hy.scale hq
    · simp only [distribute?_of_isSum_eq_false (rational_isSum q), distribute?_rational hq hsum]
      exact hy.scale hq

/-- **A rational multiple of an expanded sum is expanded.** -/
theorem rational_mul_isExpanded (q : ℚ) {y : Scalar} (hy : IsExpanded y.terms) :
    IsExpanded (rational q * y).terms ∧ IsExpanded (y * rational q).terms := by
  cases hsum : y.isSum with
  | false =>
    have hterm : y.IsTerm := ⟨hy, hsum⟩
    exact ⟨((rational_isTerm q).mul hterm).expanded, (hterm.mul (rational_isTerm q)).expanded⟩
  | true =>
    by_cases hq : q = 0
    · have hpolynomial := isPolynomial_iff.mpr hy.flat.isPolynomial
      have hzero : (rational q).isZero = true := by
        rw [hq]
        rfl
      have hleft := mul_isZero (rational_denotes q).isPolynomial hpolynomial (.inl hzero)
      have hright := mul_isZero hpolynomial (rational_denotes q).isPolynomial (.inr hzero)
      rw [List.isEmpty_iff.mp hleft, List.isEmpty_iff.mp hright]
      exact ⟨IsExpanded.nil, IsExpanded.nil⟩
    · exact ⟨product_isExpanded hq hy hsum (.inl rfl), product_isExpanded hq hy hsum (.inr rfl)⟩

/-! ## The zero test -/

theorem isZero_iff {x : Scalar} : x.isZero = true ↔ x = 0 := by
  rw [isZero, List.isEmpty_iff, zero_eq, Scalar.mk.injEq]

theorem neg_isZero (x : Scalar) : (-x).isZero = x.isZero := List.isEmpty_map

/-- **An expanded sum is zero exactly if its polynomial is.** -/
theorem isZero_iff_of_isExpanded {x : Scalar} (h : IsExpanded x.terms) : x.isZero = true ↔ x.poly = 0 := by
  rw [isZero, List.isEmpty_iff]
  exact h.eq_nil_iff

end Scalar

end TensorEquations
