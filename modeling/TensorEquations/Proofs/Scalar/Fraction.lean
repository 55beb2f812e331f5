import Mathlib
import TensorEquations.Proofs.Scalar.Arithmetic

/-!
# Scalars as fractions of polynomials

Scalars with negative exponents have values as fractions, as long as nothing is divided by zero.

* `Interpretation.Extends`, `Interpretation.Denotes.map` — values in a ring are values in a larger one.
* `fractions` — the values that scalars have as fractions of polynomials; `Scalar.Denotes.fraction` says that
  polynomials keep their values.
* `denotes_inv` — **the reciprocal of a scalar whose value is not zero has the reciprocal value.**
-/

namespace TensorEquations

open MvPolynomial

/-! ## Values in a larger ring -/

namespace Interpretation

variable {R S : Type} [CommRing R] [CommRing S] {φ : R →+* S} {I : Interpretation R} {J : Interpretation S}

/-- Numbers, symbols and the powers that exist are mapped to those of another ring. -/
structure Extends (φ : R →+* S) (I : Interpretation R) (J : Interpretation S) : Prop where
  number : ∀ q, J.number q = φ (I.number q)
  symbol : ∀ name, J.symbol name = φ (I.symbol name)
  admits : ∀ {a n}, I.Admits a n → J.Admits (φ a) n
  power : ∀ {a n}, I.Admits a n → J.power (φ a) n = φ (I.power a n)

variable (h : Extends φ I J)

include h in
theorem Extends.factors {fs : List (Factor Base)} (hfs : ∀ f ∈ fs, I.DefinesFactor f)
    (hbases : ∀ f ∈ fs, J.DefinesBase f.base ∧ J.base f.base = φ (I.base f.base)) :
    J.FactorsDenote fs (φ (I.factors fs)) := by
  induction fs with
  | nil => exact ⟨List.forall_mem_nil _, by simp⟩
  | cons f fs ih =>
    obtain ⟨hf, hfs⟩ := List.forall_mem_cons.mp hfs
    obtain ⟨⟨hbase, hvalue⟩, hbases⟩ := List.forall_mem_cons.mp hbases
    obtain ⟨hp, hv⟩ := ih hfs hbases
    refine ⟨List.forall_mem_cons.mpr ⟨⟨hvalue ▸ h.admits hf.admits, hbase⟩, hp⟩, ?_⟩
    rw [factors_cons, factors_cons, hv, hvalue, h.power hf.admits, map_mul]

include h in
theorem Extends.terms {ts : List (Term Base)} (hts : ∀ t ∈ ts, I.DefinesTerm t)
    (hbases : ∀ t ∈ ts, ∀ f ∈ t.factors, J.DefinesBase f.base ∧ J.base f.base = φ (I.base f.base)) :
    J.TermsDenote ts (φ (I.terms ts)) := by
  induction ts with
  | nil => exact ⟨List.forall_mem_nil _, by simp⟩
  | cons t ts ih =>
    obtain ⟨ht, hts⟩ := List.forall_mem_cons.mp hts
    obtain ⟨hbase, hbases⟩ := List.forall_mem_cons.mp hbases
    obtain ⟨hp, hv⟩ := ih hts hbases
    have hfactors := h.factors ht.factors hbase
    refine ⟨List.forall_mem_cons.mpr ⟨⟨ht.exact, hfactors.defines⟩, hp⟩, ?_⟩
    rw [terms_cons, terms_cons, hv, term, term, hfactors.value, h.number, map_add, map_mul]

include h in
theorem Extends.base (b : Base) (hb : I.DefinesBase b) : J.DefinesBase b ∧ J.base b = φ (I.base b) := by
  induction b using Base.induction with
  | symbol name => exact ⟨.symbol name, h.symbol name⟩
  | group ts ih =>
    have hts := I.definesBase_group.mp hb
    obtain ⟨hp, hv⟩ := h.terms hts fun t ht f hf => ih t ht f hf ((hts t ht).factors f hf).base
    exact ⟨J.definesBase_group.mpr hp, by rw [base_group, base_group, hv]⟩

include h in
/-- **Values in a ring are values in a larger one.** -/
theorem Denotes.map {s : Scalar} {a : R} (hs : I.Denotes s a) : J.Denotes s (φ a) := by
  obtain ⟨hts, rfl⟩ := hs
  exact (h.terms hts fun t ht f hf => h.base f.base ((hts t ht).factors f hf).base).scalar

end Interpretation

/-! ## Fractions -/

/-- Fractions of polynomials. -/
abbrev PolyFraction := FractionRing Poly

/-- All powers of fractions are fractions, but zero has only positive ones. -/
noncomputable def fractions : Interpretation PolyFraction where
  number := (algebraMap Poly PolyFraction).comp C
  symbol name := algebraMap Poly PolyFraction (X name)
  power a n := a ^ n
  Admits a n := a ≠ 0 ∨ 0 < n
  admits_one _ := .inr one_pos
  power_one := zpow_one
  power_zero _ := zpow_zero _
  admits_add hm hn := by
    rcases hm with ha | hm
    · exact .inl ha
    · exact hn.imp_right (add_pos hm)
  power_add {a m n} hm hn := by
    refine zpow_add' ?_
    by_cases ha : a = 0
    · have hm := hm.resolve_left (not_not.mpr ha)
      have hn := hn.resolve_left (not_not.mpr ha)
      exact .inr (.inl (by omega))
    · exact .inl ha

theorem polynomials_extends : Interpretation.Extends (algebraMap Poly PolyFraction) polynomials fractions where
  number _ := rfl
  symbol _ := rfl
  admits := .inr
  power {a n} hn := by
    obtain ⟨m, rfl⟩ := Int.eq_ofNat_of_zero_le hn.le
    show algebraMap Poly PolyFraction a ^ (m : ℤ) = algebraMap Poly PolyFraction (a ^ (m : ℤ).toNat)
    rw [zpow_natCast, Int.toNat_natCast, map_pow]

/-- Polynomials keep their values. -/
theorem Scalar.Denotes.fraction {s : Scalar} {p : Poly} (h : s.Denotes p) :
    fractions.Denotes s (algebraMap Poly PolyFraction p) :=
  (Scalar.denotes_iff.mp h).map polynomials_extends

/-- A product that is not zero has no power of zero. -/
theorem base_ne_zero {fs : List (Factor Base)} (hfs : ∀ f ∈ fs, fractions.DefinesFactor f)
    (hne : fractions.factors fs ≠ 0) {f : Factor Base} (hf : f ∈ fs) : fractions.base f.base ≠ 0 := by
  intro hzero
  have hpos := (hfs f hf).admits.resolve_left (not_not.mpr hzero)
  have hpower : fractions.power (fractions.base f.base) f.exponent = 0 := by
    rw [hzero]
    exact zero_zpow _ hpos.ne'
  refine hne (List.prod_eq_zero_iff.mpr ?_)
  exact hpower ▸ List.mem_map_of_mem (f := fun f => fractions.power (fractions.base f.base) f.exponent) hf

/-- **The reciprocal of a scalar has the reciprocal value.** -/
theorem denotes_inv {s : Scalar} {a : PolyFraction} (h : fractions.Denotes s a) (ha : a ≠ 0) :
    fractions.Denotes s.inv a⁻¹ := by
  unfold Scalar.inv Scalar.pow
  rw [if_neg (by decide), if_neg (by decide)]
  split
  · rename_i c hc
    obtain ⟨q, rfl, rfl⟩ := h.number_of hc
    have hq : q ≠ 0 := fun hq => ha (by rw [hq, map_zero])
    rw [Number.exact_inv hq, ← map_inv₀]
    exact Interpretation.number_denotes q⁻¹
  · obtain ⟨q, hq, hfs, rfl⟩ := h.asProduct
    have hqne : q ≠ 0 := fun hq => ha (by rw [hq, map_zero, zero_mul])
    have hne := right_ne_zero_of_mul ha
    obtain ⟨hp, hv⟩ := Interpretation.raiseFactors_denotes (n := -1) invMonoidHom hfs fun f hf => by
      refine ⟨.inl (base_ne_zero hfs hne hf), ?_⟩
      show fractions.base f.base ^ (f.exponent * -1) = (fractions.base f.base ^ f.exponent)⁻¹
      rw [mul_neg_one, zpow_neg]
    have hproduct := Interpretation.ofProduct_denotes (q := q⁻¹) hp
    rw [hv, map_inv₀] at hproduct
    rw [hq, Number.exact_inv hqne, mul_inv]
    exact hproduct

end TensorEquations
