import TensorEquations.Proofs.Tensor.Matching

/-!
# What equality by label decides

* `Tensor.Matched.refl`, `Tensor.Matched.symm`, `Tensor.Matched.trans` — tensors matched as polynomials.
* `Tensor.SameByLabel`, `Tensor.matched_iff_sameByLabel` — the same labels, the same dimension if there are axes, and
  the same polynomial wherever values of the labels select a component.
* `Tensor.isZero_iff` — **the zero test is complete.**
* `Tensor.equals_decides` — **equality by label decides whether two tensors of polynomials are the same.**
-/

namespace TensorEquations.Tensor

open Scalar (SamePolynomial)

variable {t u v : Tensor}

/-! ## Tensors matched as polynomials -/

theorem Matched.refl (ht : t.IsPolynomial) : t.Matched SamePolynomial t :=
  ⟨List.Perm.refl _, rfl, fun ν _ => Scalar.maps_id (ht.lookup ν)⟩

theorem Matched.symm (h : t.Matched SamePolynomial u) : u.Matched SamePolynomial t := by
  refine ⟨h.labels.symm, h.dimension.symm, fun ν hν => ?_⟩
  have hsame := h.lookup ν (h.inRange.mp hν)
  exact ⟨hsame.right, hsame.left, hsame.poly_eq.symm⟩

theorem Matched.trans (h : t.Matched SamePolynomial u) (h' : u.Matched SamePolynomial v) :
    t.Matched SamePolynomial v := by
  refine ⟨h.labels.trans h'.labels, h.dimension.trans h'.dimension, fun ν hν => ?_⟩
  have hsame := h.lookup ν hν
  have hsame' := h'.lookup ν (h.inRange.mpr hν)
  exact ⟨hsame.left, hsame'.right, hsame'.poly_eq.trans hsame.poly_eq⟩

/-! ## What is decided -/

/-- Two tensors that are the same up to the order of their axes and the form in which their components are
written. -/
structure SameByLabel (t u : Tensor) : Prop where
  labels : ∀ l, l ∈ t.labels ↔ l ∈ u.labels
  dimension : 0 < t.rank → t.dimension = u.dimension
  poly_eq : ∀ ν, t.InRange ν → (t.lookup ν).poly = (u.lookup ν).poly

theorem matched_iff_sameByLabel (ht : t.IsPolynomial) (hu : u.IsPolynomial) :
    t.Matched SamePolynomial u ↔ SameByLabel t u := by
  constructor
  · intro h
    exact ⟨fun l => h.labels.mem_iff, fun _ => h.dimension, fun ν hν => (h.lookup ν hν).poly_eq.symm⟩
  · intro h
    have hlabels : t.labels.Perm u.labels := (List.perm_ext_iff_of_nodup t.nodup_labels u.nodup_labels).mpr h.labels
    refine ⟨hlabels, ?_, fun ν hν => ⟨ht.lookup ν, hu.lookup ν, (h.poly_eq ν hν).symm⟩⟩
    -- Without axes both dimensions are zero.
    by_cases hempty : t.labels = []
    · rw [t.dimension_of_scalar hempty, u.dimension_of_scalar (hempty ▸ hlabels).nil_eq.symm]
    · exact h.dimension (List.length_pos_iff.mpr hempty)

/-- **The zero test is complete**: no way to write the zero polynomial escapes it. -/
theorem isZero_iff (ht : t.IsPolynomial) : t.isZero = true ↔ ∀ s ∈ t.toList, s.poly = 0 := by
  rw [isZero, List.all_eq_true]
  exact forall₂_congr fun s hs => Scalar.expand_isZero (ht s hs)

/-- **Equality by label is decided.** Two tensors of polynomials are equal by label exactly if they have the same
labels, the same dimension if they have axes, and the same polynomials at the same values of the labels. So this is an
equivalence; and a tensor of polynomials is zero exactly if all its components are the zero polynomial. -/
theorem equals_decides (ht : t.IsPolynomial) (hu : u.IsPolynomial) (hv : v.IsPolynomial) :
    (t.equals u = true ↔ SameByLabel t u) ∧ t.equals t = true ∧ t.equals u = u.equals t ∧
      (t.equals u = true → u.equals v = true → t.equals v = true) ∧
      (t.isZero = true ↔ ∀ s ∈ t.toList, s.poly = 0) := by
  have hsymm : t.equals u = true ↔ u.equals t = true := by
    rw [equals_iff_matched ht hu, equals_iff_matched hu ht]
    exact ⟨Matched.symm, Matched.symm⟩
  refine ⟨?_, (Matched.refl ht).equals, Bool.eq_iff_iff.mpr hsymm, fun htu huv => ?_, isZero_iff ht⟩
  · rw [equals_iff_matched ht hu, matched_iff_sameByLabel ht hu]
  · exact (((equals_iff_matched ht hu).mp htu).trans ((equals_iff_matched hu hv).mp huv)).equals

/-- Differences of squares, as products and as differences with the axes the other way round, and a tensor that
differs in the middle term: two of three are the same. -/
theorem equals_decides_squares :
    let x := Scalar.symbol "x"
    let a := fun index => Scalar.symbol (componentName "A" index)
    let t := ofFunction ["i", "j"] (by decide) 2 fun index => (x + a index) * (x - a index)
    let u := ofFunction ["j", "i"] (by decide) 2 fun index => x * x - a index.reverse * a index.reverse
    let w := ofFunction ["j", "i"] (by decide) 2 fun index => (x - a index.reverse) * (x - a index.reverse)
    SameByLabel t u ∧ u.equals t = true ∧ t.equals w = false ∧
      ∃ difference, t.sub u = .ok difference ∧ ∀ s ∈ difference.toList, s.poly = 0 := by
  intro x a t u w
  have ht : t.IsPolynomial := show ∀ s ∈ t.toList, s.isPolynomial = true by decide +kernel
  have hu : u.IsPolynomial := show ∀ s ∈ u.toList, s.isPolynomial = true by decide +kernel
  have hw : w.IsPolynomial := show ∀ s ∈ w.toList, s.isPolynomial = true by decide +kernel
  have htu : t.equals u = true := by decide +kernel
  have htw : t.equals w = false := by decide +kernel
  obtain ⟨d, hd, hpolynomial⟩ : ∃ d, t.sub u = .ok d ∧ ∀ s ∈ d.toList, s.isPolynomial = true :=
    ⟨_, rfl, by decide +kernel⟩
  have hzero : d.isZero = true := by rwa [equals, hd] at htu
  obtain ⟨hsame, -, hsymm, -⟩ := equals_decides ht hu hw
  obtain ⟨-, -, -, -, hzeros⟩ := equals_decides hpolynomial hu hw
  exact ⟨hsame.mp htu, hsymm ▸ htu, htw, d, hd, hzeros.mp hzero⟩

end TensorEquations.Tensor
