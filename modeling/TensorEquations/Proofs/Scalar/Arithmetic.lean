import TensorEquations.Proofs.Scalar.Operations

/-!
# Arithmetic and polynomials

The operations on polynomial scalars are those on their polynomials, which are their values.

* `Scalar.Denotes`, `TermsDenote`, `FactorsDenote` — a polynomial scalar, sum or product together with
  its polynomial; `Scalar.denotes_iff` says that the polynomial is the value.
* `collectTerms_denotes`, `collectFactors_denotes` — collecting keeps the polynomial.
* `Scalar.sum_denotes`, `Scalar.product_denotes`, `Scalar.Denotes.pow` and the operations made from
  them.
-/

namespace TensorEquations

open MvPolynomial

/-- A polynomial scalar and its polynomial. -/
structure Scalar.Denotes (s : Scalar) (p : Poly) : Prop where
  isPolynomial : s.isPolynomial = true
  poly_eq : s.poly = p

/-- The terms of a polynomial and the polynomial. -/
structure TermsDenote (ts : List (Term Base)) (p : Poly) : Prop where
  isPolynomial : ∀ t ∈ ts, t.IsPolynomial
  poly_eq : termsPoly ts = p

/-- A product of positive powers and its polynomial. -/
structure FactorsDenote (fs : List (Factor Base)) (p : Poly) : Prop where
  isPolynomial : ∀ f ∈ fs, f.IsPolynomial
  poly_eq : factorsPoly fs = p

theorem TermsDenote.scalar {ts : List (Term Base)} {p : Poly} (h : TermsDenote ts p) :
    (⟨ts⟩ : Scalar).Denotes p := ⟨Scalar.isPolynomial_iff.mpr h.isPolynomial, h.poly_eq⟩

theorem Scalar.Denotes.terms {s : Scalar} {p : Poly} (h : s.Denotes p) : TermsDenote s.terms p :=
  ⟨Scalar.isPolynomial_iff.mp h.isPolynomial, h.poly_eq⟩

theorem Scalar.denotes_poly {s : Scalar} (h : s.isPolynomial = true) : s.Denotes s.poly := ⟨h, rfl⟩

/-! ## Polynomials as values -/

/-- **The polynomial of a scalar is its value.** -/
theorem Scalar.denotes_iff {s : Scalar} {p : Poly} : s.Denotes p ↔ polynomials.Denotes s p := by
  constructor
  · exact fun h => ⟨fun t ht => definesTerm_polynomials.mpr (h.terms.isPolynomial t ht), h.poly_eq⟩
  · exact fun h => ⟨isPolynomial_iff.mpr fun t ht => definesTerm_polynomials.mp (h.defines t ht), h.value⟩

theorem Scalar.value_denotes {s : Scalar} (h : s.isPolynomial = true) : polynomials.Denotes s s.poly :=
  denotes_iff.mp (denotes_poly h)

theorem defines_of_isPolynomial {ts : List (Term Base)} (h : ∀ t ∈ ts, t.IsPolynomial) :
    ∀ t ∈ ts, polynomials.DefinesTerm t := fun t ht => definesTerm_polynomials.mpr (h t ht)

theorem factors_of_isPolynomial {fs : List (Factor Base)} (h : ∀ f ∈ fs, f.IsPolynomial) :
    ∀ f ∈ fs, polynomials.DefinesFactor f := fun f hf => definesFactor_polynomials.mpr (h f hf)

/-! ## Collecting -/

/-- **Collecting like terms keeps the polynomial.** -/
theorem collectTerms_denotes {ts : List (Term Base)} (h : ∀ t ∈ ts, t.IsPolynomial) :
    TermsDenote (collectTerms ts) (termsPoly ts) := by
  obtain ⟨hdefines, hvalue⟩ := Interpretation.collectTerms_denotes (defines_of_isPolynomial h)
  exact ⟨fun t ht => definesTerm_polynomials.mp (hdefines t ht), hvalue⟩

theorem any_isUndefined_eq_false {ts : List (Term Base)} (h : ∀ t ∈ ts, t.IsPolynomial) :
    ts.any (·.coefficient.isUndefined) = false :=
  Interpretation.any_isUndefined_eq_false (defines_of_isPolynomial h)

/-- **Collecting powers of equal bases keeps the polynomial.** -/
theorem collectFactors_denotes {fs : List (Factor Base)} (h : ∀ f ∈ fs, f.IsPolynomial) :
    FactorsDenote (collectFactors fs) (factorsPoly fs) := by
  obtain ⟨hdefines, hvalue⟩ := Interpretation.collectFactors_denotes (factors_of_isPolynomial h)
  exact ⟨fun f hf => definesFactor_polynomials.mp (hdefines f hf), hvalue⟩

namespace Scalar

theorem zero_denotes : (⟨[]⟩ : Scalar).Denotes 0 := ⟨rfl, rfl⟩

theorem number_denotes (q : Rat) : (number (.exact q)).Denotes (C q) :=
  denotes_iff.mpr (Interpretation.number_denotes q)

theorem rational_denotes (q : Rat) : (rational q).Denotes (C q) := number_denotes q

theorem symbol_denotes (name : String) : (symbol name).Denotes (X name) :=
  denotes_iff.mpr (Interpretation.symbol_denotes name)

theorem ofTerm_denotes {t : Term Base} (h : t.IsPolynomial) : (ofTerm t).Denotes t.poly :=
  denotes_iff.mpr (Interpretation.ofTerm_denotes (definesTerm_polynomials.mpr h))

theorem ofFactor_denotes {f : Factor Base} (h : f.IsPolynomial) :
    (ofFactor f).Denotes (f.base.poly ^ f.exponent.toNat) :=
  denotes_iff.mpr (Interpretation.ofFactor_denotes (definesFactor_polynomials.mpr h))

/-- A product of positive powers loses none of them. -/
theorem ofProduct_eq {q : Rat} {fs : List (Factor Base)} (h : ∀ f ∈ fs, f.IsPolynomial) :
    ofProduct (.exact q) fs = ofFactors (.exact q) fs := by
  have hfilter : fs.filter (·.exponent != 0) = fs := by
    rw [List.filter_eq_self]
    intro f hf
    have := (h f hf).1
    simp only [bne_iff_ne, ne_eq]
    omega
  rw [ofProduct_of_isExact fun f hf => (factors_of_isPolynomial h f hf).base.isExact, hfilter]

/-! ## Sums and products -/

/-- **The sum of a list.** -/
theorem sum_denotes {xs : List Scalar} (h : ∀ x ∈ xs, x.isPolynomial = true) :
    (sum xs).Denotes (xs.map poly).sum :=
  denotes_iff.mpr (Interpretation.sum_denotes fun x hx => value_denotes (h x hx))

theorem Denotes.add {a b : Scalar} {p q : Poly} (ha : a.Denotes p) (hb : b.Denotes q) :
    (a + b).Denotes (p + q) := denotes_iff.mpr ((denotes_iff.mp ha).add (denotes_iff.mp hb))

theorem Denotes.neg {a : Scalar} {p : Poly} (h : a.Denotes p) : (-a).Denotes (-p) :=
  denotes_iff.mpr (denotes_iff.mp h).neg

theorem Denotes.sub {a b : Scalar} {p q : Poly} (ha : a.Denotes p) (hb : b.Denotes q) :
    (a - b).Denotes (p - q) := denotes_iff.mpr ((denotes_iff.mp ha).sub (denotes_iff.mp hb))

theorem prod_filter_ne_one (xs : List Scalar) :
    ((xs.filter (· ≠ 1)).map poly).prod = (xs.map poly).prod :=
  Interpretation.prod_filter_ne_one (I := polynomials) xs

/-- **The product of a list.** -/
theorem product_denotes {xs : List Scalar} (h : ∀ x ∈ xs, x.isPolynomial = true) :
    (product xs).Denotes (xs.map poly).prod :=
  denotes_iff.mpr (Interpretation.product_denotes fun x hx => value_denotes (h x hx))

theorem Denotes.mul {a b : Scalar} {p q : Poly} (ha : a.Denotes p) (hb : b.Denotes q) :
    (a * b).Denotes (p * q) := denotes_iff.mpr ((denotes_iff.mp ha).mul (denotes_iff.mp hb))

/-! ## Powers -/

theorem Denotes.pow {a : Scalar} {p : Poly} (h : a.Denotes p) {n : Int} (hn : 0 < n) :
    (a.pow n).Denotes (p ^ n.toNat) := by
  have hvalue := denotes_iff.mp h
  unfold Scalar.pow
  split
  · omega
  · split
    · rename_i h1
      rw [h1]
      simpa using h
    · split
      · rename_i c hc
        obtain ⟨q, rfl, rfl⟩ := hvalue.number_of hc
        rw [Number.exact_pow hn]
        exact map_pow C q n.toNat ▸ number_denotes _
      · obtain ⟨q, hq, hf, rfl⟩ := hvalue.asProduct
        obtain ⟨hp, hr⟩ := Interpretation.raiseFactors_denotes (n := n) (powMonoidHom n.toNat) hf fun f hf' => by
          have hexponent := (hf f hf').admits
          exact ⟨mul_pos hexponent hn, by
            show f.base.poly ^ (f.exponent * n).toNat = (f.base.poly ^ f.exponent.toNat) ^ n.toNat
            rw [Int.toNat_mul hexponent.le hn.le, pow_mul]⟩
        have hproduct := Interpretation.ofProduct_denotes (q := q ^ n.toNat) hp
        rw [hr, map_pow] at hproduct
        rw [hq, Number.exact_pow hn, mul_pow]
        exact denotes_iff.mpr hproduct

/-! ## Rational scalars -/

theorem number?_rational (q : Rat) : (rational q).number? = some (.exact q) := by
  unfold rational number
  split
  · rename_i h
    rw [h]
    rfl
  · rfl

theorem rational_add (p q : Rat) : rational p + rational q = rational (p + q) := by
  show Scalar.add _ _ = _
  simp only [Scalar.add, number?_rational]
  rfl

theorem rational_inv {q : Rat} (h : q ≠ 0) : (rational q).inv = rational q⁻¹ := by
  simp only [inv, Scalar.pow, number?_rational, Number.exact_inv h]
  rfl

theorem rational_eq (q : ℚ) : rational q = if q = 0 then ⟨[]⟩ else ⟨[⟨.exact q, []⟩]⟩ := by
  have hzero : (.exact q = (0 : Number)) ↔ q = 0 :=
    ⟨fun h => Number.exact.inj h, fun h => by rw [h]; rfl⟩
  unfold rational number
  simp only [hzero]

theorem rational_isSum (q : ℚ) : (rational q).isSum = false := by
  rw [rational_eq]
  split <;> rfl

theorem rational_asProduct (q : ℚ) : (rational q).asProduct = (.exact q, []) := by
  rw [rational_eq]
  split
  · rename_i h
    rw [h]
    rfl
  · rfl

theorem rational_ne_one {q : ℚ} (h : q ≠ 1) : rational q ≠ 1 := by
  intro he
  have := congrArg number? he
  rw [number?_rational] at this
  cases this
  exact h rfl

theorem multiply_rational (p q : ℚ) : multiply [rational p, rational q] = rational (p * q) := by
  unfold multiply
  simp only [List.partition_eq_filter_filter, List.filter_cons, List.filter_nil, number?_rational,
    Function.comp, Option.isSome_some, Bool.not_true, Bool.false_eq_true, if_true, if_false,
    List.append_nil, List.foldl_cons, List.foldl_nil, rational_asProduct, List.flatMap_nil]
  show ofProduct (.exact (1 * p * q)) [] = _
  rw [one_mul, ofProduct_eq (by simp), rational_eq]
  simp [ofFactors, Number.isUndefined, Number.isZero]

theorem rational_mul (p q : ℚ) : rational p * rational q = rational (p * q) := by
  show product [rational p, rational q] = _
  by_cases hp : p = 1
  · subst hp
    by_cases hq : q = 1
    · subst hq
      rw [one_mul, show rational 1 = 1 from rfl]
      simp [product]
    · rw [one_mul, show rational 1 = 1 from rfl]
      simp [product, rational_ne_one hq]
  · by_cases hq : q = 1
    · subst hq
      rw [mul_one, show rational 1 = 1 from rfl]
      simp [product, rational_ne_one hp]
    · simp [product, rational_ne_one hp, rational_ne_one hq, distribute?, number?_rational,
        rational_isSum, multiply_rational]

theorem rational_neg (q : ℚ) : -rational q = rational (-q) := by
  show neg _ = _
  rw [rational_eq, rational_eq, neg]
  by_cases h : q = 0
  · subst h
    rfl
  · rw [if_neg h, if_neg (neg_ne_zero.mpr h), ← neg_one_mul q]
    rfl

end Scalar

end TensorEquations
