import Mathlib.Algebra.MvPolynomial.Degrees
import Mathlib.Data.Finsupp.Weight
import Mathlib.Data.String.Basic
import TensorEquations.Proofs.Scalar.Arithmetic

/-!
# Monomials

Products of powers of symbols in written order stand for the monomials of polynomials, one for each.

* `IsMonomial` — positive powers of symbols in ascending order.
* `collectFactors_isMonomial` — collecting equal symbols gives a monomial.
* `compareFactors_trans`, `compareFactors_total` — written order is a linear order of monomials.
* `exponents`, `IsMonomial.eq_of_exponents` — the exponents of a monomial tell the product.
* `exponents_degree_le_one` — a monomial of degree at most one is empty or a symbol.
-/

namespace TensorEquations

open MvPolynomial

/-! ## Monomials -/

/-- The name of a power of a symbol. -/
def Factor.name (f : Factor Base) : String :=
  match f.base with
  | .symbol name => name
  | .group _ => ""

/-- A positive power of a symbol. -/
def Factor.IsPower (f : Factor Base) : Prop := f.base = .symbol f.name ∧ 0 < f.exponent

/-- Positive powers of symbols in strictly ascending order. -/
structure IsMonomial (fs : List (Factor Base)) : Prop where
  powers : ∀ f ∈ fs, f.IsPower
  sorted : (fs.map Factor.name).Pairwise (· < ·)

theorem Factor.IsPower.isPolynomial {f : Factor Base} (h : f.IsPower) : f.IsPolynomial :=
  ⟨h.2, by rw [h.1]; rfl⟩

theorem IsMonomial.nil : IsMonomial [] := ⟨List.forall_mem_nil _, List.Pairwise.nil⟩

theorem IsMonomial.tail {f : Factor Base} {fs : List (Factor Base)} (h : IsMonomial (f :: fs)) :
    IsMonomial fs :=
  ⟨fun g hg => h.powers g (List.mem_cons_of_mem _ hg), (List.pairwise_cons.mp h.sorted).2⟩

theorem IsMonomial.head_lt {f : Factor Base} {fs : List (Factor Base)} (h : IsMonomial (f :: fs)) :
    ∀ g ∈ fs, f.name < g.name :=
  fun _ hg => (List.pairwise_cons.mp h.sorted).1 _ (List.mem_map_of_mem hg)

theorem IsMonomial.isPolynomial {fs : List (Factor Base)} (h : IsMonomial fs) :
    ∀ f ∈ fs, f.IsPolynomial := fun f hf => (h.powers f hf).isPolynomial

/-- Bases that are symbols are ordered by name. -/
theorem Factor.order_eq {f g : Factor Base} (hf : f.IsPower) (hg : g.IsPower) :
    f.base.order g.base = compare f.name g.name := by
  rw [hf.1, hg.1]
  rfl

theorem Factor.ext_name {f g : Factor Base} (hf : f.IsPower) (hg : g.IsPower)
    (hn : f.name = g.name) (he : f.exponent = g.exponent) : f = g := by
  obtain ⟨b, e⟩ := f
  obtain ⟨c, d⟩ := g
  have hb : b = c := hf.1.trans ((congrArg Base.symbol hn).trans hg.1.symm)
  rw [hb, show e = d from he]

theorem insertFactor_names (f : Factor Base) : ∀ (gs : List (Factor Base)),
    ∀ n ∈ (insertFactor f gs).map Factor.name, n = f.name ∨ n ∈ gs.map Factor.name
  | [], n, h => by simpa [insertFactor] using h
  | g :: gs, n, h => by
    unfold insertFactor at h
    split at h
    · simpa using h
    · rcases List.mem_cons.mp h with rfl | h
      · exact .inr List.mem_cons_self
      · exact (insertFactor_names f gs n h).imp_right (List.mem_cons_of_mem _)
    · rcases List.mem_cons.mp h with rfl | h
      · exact .inr List.mem_cons_self
      · exact .inr (List.mem_cons_of_mem _ h)

theorem insertFactor_isMonomial {f : Factor Base} (hf : f.IsPower) : ∀ {gs : List (Factor Base)},
    IsMonomial gs → IsMonomial (insertFactor f gs)
  | [], _ => ⟨by simpa [insertFactor] using hf, by simp [insertFactor]⟩
  | g :: gs, h => by
    have hg := h.powers g List.mem_cons_self
    unfold insertFactor
    rw [Factor.order_eq hf hg]
    split
    · rename_i ho
      rw [compare_lt_iff_lt] at ho
      refine ⟨by simpa using ⟨hf, hg, h.tail.powers⟩, ?_⟩
      rw [List.map_cons, List.pairwise_cons]
      refine ⟨?_, h.sorted⟩
      intro n hn
      rw [List.map_cons, List.mem_cons] at hn
      rcases hn with rfl | hn
      · exact ho
      · exact ho.trans ((List.pairwise_cons.mp h.sorted).1 n hn)
    · rename_i ho
      rw [compare_gt_iff_gt] at ho
      have hi := insertFactor_isMonomial hf h.tail
      refine ⟨by simpa using ⟨hg, hi.powers⟩, ?_⟩
      rw [List.map_cons, List.pairwise_cons]
      refine ⟨?_, hi.sorted⟩
      intro n hn
      rcases insertFactor_names f gs n hn with rfl | hn
      · exact ho
      · exact (List.pairwise_cons.mp h.sorted).1 n hn
    · have hp : (⟨g.base, g.exponent + f.exponent⟩ : Factor Base).IsPower := ⟨hg.1, add_pos hg.2 hf.2⟩
      exact ⟨by simpa using ⟨hp, h.tail.powers⟩, h.sorted⟩

theorem collectFactors_isMonomial {fs : List (Factor Base)} (h : ∀ f ∈ fs, f.IsPower) :
    IsMonomial (collectFactors fs) := by
  unfold collectFactors
  suffices ∀ (fs product : List (Factor Base)), (∀ f ∈ fs, f.IsPower) → IsMonomial product →
      IsMonomial (fs.foldl (fun product f => insertFactor f product) product) from
    this fs [] h IsMonomial.nil
  intro fs
  induction fs with
  | nil => intro product _ hp; exact hp
  | cons f fs ih =>
      intro product hf hp
      exact ih _ (fun g hg => hf g (List.mem_cons_of_mem _ hg))
        (insertFactor_isMonomial (hf f List.mem_cons_self) hp)

/-! ## The order of monomials -/

theorem compareFactors_cons_lt {f g : Factor Base} {fs gs : List (Factor Base)} (hf : f.IsPower)
    (hg : g.IsPower) : compareFactors (f :: fs) (g :: gs) = .lt ↔
      f.name < g.name ∨ (f.name = g.name ∧ (g.exponent < f.exponent ∨
        (f.exponent = g.exponent ∧ compareFactors fs gs = .lt))) := by
  have hf2 := hf.2
  have hg2 := hg.2
  simp only [compareFactors, Factor.order_eq hf hg, hf2, hg2, if_true]
  split
  · rename_i ho
    rw [compare_lt_iff_lt] at ho
    simp [ho]
  · rename_i ho
    rw [compare_gt_iff_gt] at ho
    simp [ho.not_gt, ho.ne']
  · rename_i ho
    rw [compare_eq_iff_eq] at ho
    split
    · rename_i he
      simp [ho, he]
    · rename_i he
      split
      · rename_i hl
        simp [ho, hl]
      · rename_i hl
        simp [ho, hl, he]

theorem compareFactors_nil_left {gs : List (Factor Base)} (hg : ∀ g ∈ gs, g.IsPower) :
    compareFactors [] gs ≠ .lt := by
  cases gs with
  | nil => simp [compareFactors]
  | cons g gs => simp [compareFactors, (hg g List.mem_cons_self).2]

theorem compareFactors_nil_right {f : Factor Base} {fs : List (Factor Base)} (hf : f.IsPower) :
    compareFactors (f :: fs) [] = .lt := by
  simp [compareFactors, hf.2]

theorem compareFactors_trans : ∀ {fs gs hs : List (Factor Base)}, (∀ f ∈ fs, f.IsPower) →
    (∀ g ∈ gs, g.IsPower) → (∀ h ∈ hs, h.IsPower) → compareFactors fs gs = .lt →
    compareFactors gs hs = .lt → compareFactors fs hs = .lt
  | [], gs, _, _, hg, _, h₁, _ => absurd h₁ (compareFactors_nil_left hg)
  | _ :: _, [], hs, _, _, hh, _, h₂ => absurd h₂ (compareFactors_nil_left hh)
  | f :: fs, _ :: _, [], hf, _, _, _, _ => compareFactors_nil_right (hf f List.mem_cons_self)
  | f :: fs, g :: gs, h :: hs, hf, hg, hh, h₁, h₂ => by
    have hf' := hf f List.mem_cons_self
    have hg' := hg g List.mem_cons_self
    have hh' := hh h List.mem_cons_self
    rw [compareFactors_cons_lt hf' hg'] at h₁
    rw [compareFactors_cons_lt hg' hh'] at h₂
    rw [compareFactors_cons_lt hf' hh']
    rcases h₁ with h₁ | ⟨e₁, h₁⟩
    · rcases h₂ with h₂ | ⟨e₂, _⟩
      · exact .inl (h₁.trans h₂)
      · exact .inl (e₂ ▸ h₁)
    · rcases h₂ with h₂ | ⟨e₂, h₂⟩
      · exact .inl (e₁ ▸ h₂)
      · refine .inr ⟨e₁.trans e₂, ?_⟩
        rcases h₁ with h₁ | ⟨d₁, h₁⟩
        · rcases h₂ with h₂ | ⟨d₂, _⟩
          · exact .inl (h₂.trans h₁)
          · exact .inl (d₂ ▸ h₁)
        · rcases h₂ with h₂ | ⟨d₂, h₂⟩
          · exact .inl (d₁ ▸ h₂)
          · exact .inr ⟨d₁.trans d₂, compareFactors_trans
              (fun x hx => hf x (List.mem_cons_of_mem _ hx))
              (fun x hx => hg x (List.mem_cons_of_mem _ hx))
              (fun x hx => hh x (List.mem_cons_of_mem _ hx)) h₁ h₂⟩

theorem compareFactors_total : ∀ {fs gs : List (Factor Base)}, (∀ f ∈ fs, f.IsPower) →
    (∀ g ∈ gs, g.IsPower) →
    (compareFactors fs gs = .lt) ∨ (compareFactors fs gs = .eq ∧ fs = gs) ∨
      (compareFactors fs gs = .gt ∧ compareFactors gs fs = .lt)
  | [], [], _, _ => .inr (.inl ⟨rfl, rfl⟩)
  | [], g :: gs, _, hg => by
    have h := (hg g List.mem_cons_self).2
    exact .inr (.inr ⟨by simp [compareFactors, h], by simp [compareFactors, h]⟩)
  | f :: fs, [], hf, _ => .inl (compareFactors_nil_right (hf f List.mem_cons_self))
  | f :: fs, g :: gs, hf, hg => by
    have hf' := hf f List.mem_cons_self
    have hg' := hg g List.mem_cons_self
    have hf2 := hf'.2
    have hg2 := hg'.2
    rw [compareFactors_cons_lt hf' hg', compareFactors_cons_lt hg' hf']
    simp only [compareFactors, Factor.order_eq hf' hg', hf2, hg2, if_true]
    rcases lt_trichotomy f.name g.name with hn | hn | hn
    · exact .inl (.inl hn)
    · rcases lt_trichotomy f.exponent g.exponent with he | he | he
      · have hc : compare f.name g.name = .eq := compare_eq_iff_eq.mpr hn
        refine .inr (.inr ⟨?_, .inr ⟨hn.symm, .inl he⟩⟩)
        simp [hc, he.ne, he.not_gt]
      · have hc : compare f.name g.name = .eq := compare_eq_iff_eq.mpr hn
        rcases compareFactors_total (fun x hx => hf x (List.mem_cons_of_mem _ hx))
          (fun x hx => hg x (List.mem_cons_of_mem _ hx)) with h | ⟨h, rfl⟩ | ⟨h, h'⟩
        · exact .inl (.inr ⟨hn, .inr ⟨he, h⟩⟩)
        · exact .inr (.inl ⟨by simp [hc, he, h], by rw [Factor.ext_name hf' hg' hn he]⟩)
        · exact .inr (.inr ⟨by simp [hc, he, h], .inr ⟨hn.symm, .inr ⟨he.symm, h'⟩⟩⟩)
      · exact .inl (.inr ⟨hn, .inl he⟩)
    · refine .inr (.inr ⟨?_, .inl hn⟩)
      simp [compare_gt_iff_gt.mpr hn]

theorem compareFactors_self : ∀ {fs : List (Factor Base)}, (∀ f ∈ fs, f.IsPower) →
    compareFactors fs fs = .eq
  | [], _ => rfl
  | f :: fs, h => by
    have hf := h f List.mem_cons_self
    have hc : compare f.name f.name = .eq := compare_eq_iff_eq.mpr rfl
    simp only [compareFactors, Factor.order_eq hf hf, hc, if_true]
    exact compareFactors_self fun g hg => h g (List.mem_cons_of_mem _ hg)

/-! ## Exponents -/

/-- The exponents of the symbols in a product of powers. -/
noncomputable def exponents (fs : List (Factor Base)) : String →₀ ℕ :=
  (fs.map fun f => Finsupp.single f.name f.exponent.toNat).sum

@[simp] theorem exponents_nil : exponents [] = 0 := rfl

@[simp] theorem exponents_cons (f : Factor Base) (fs : List (Factor Base)) :
    exponents (f :: fs) = Finsupp.single f.name f.exponent.toNat + exponents fs := by
  simp [exponents]

theorem factorsPoly_eq_monomial : ∀ {fs : List (Factor Base)}, (∀ f ∈ fs, f.IsPower) →
    factorsPoly fs = monomial (exponents fs) 1
  | [], _ => rfl
  | f :: fs, h => by
    rw [factorsPoly_cons, factorsPoly_eq_monomial fun g hg => h g (List.mem_cons_of_mem _ hg),
      (h f List.mem_cons_self).1, Base.poly_symbol, X_pow_eq_monomial, monomial_mul, exponents_cons,
      one_mul]

theorem exponents_eq_zero_of_lt : ∀ {fs : List (Factor Base)} {name : String},
    (∀ f ∈ fs, name < f.name) → exponents fs name = 0
  | [], _, _ => rfl
  | f :: fs, name, h => by
    have hf : f.name ≠ name := (h f List.mem_cons_self).ne'
    rw [exponents_cons, Finsupp.add_apply, Finsupp.single_eq_of_ne' hf,
      exponents_eq_zero_of_lt fun g hg => h g (List.mem_cons_of_mem _ hg)]

/-- The first symbol of a monomial, with its exponent. -/
theorem IsMonomial.exponents_head {f : Factor Base} {fs : List (Factor Base)}
    (h : IsMonomial (f :: fs)) : exponents (f :: fs) f.name = f.exponent.toNat := by
  rw [exponents_cons, Finsupp.add_apply, Finsupp.single_eq_same,
    exponents_eq_zero_of_lt h.head_lt, add_zero]

theorem IsMonomial.exponents_head_pos {f : Factor Base} {fs : List (Factor Base)}
    (h : IsMonomial (f :: fs)) : 0 < exponents (f :: fs) f.name := by
  have hf := (h.powers f List.mem_cons_self).2
  rw [h.exponents_head]
  omega

theorem IsMonomial.exponents_cons_ne_zero {f : Factor Base} {fs : List (Factor Base)}
    (h : IsMonomial (f :: fs)) : exponents (f :: fs) ≠ 0 := by
  intro h0
  have := h.exponents_head_pos
  rw [h0] at this
  exact absurd this (lt_irrefl 0)

/-- The first symbols of monomials with the same exponents agree. -/
theorem IsMonomial.head_not_lt {f g : Factor Base} {fs gs : List (Factor Base)}
    (hf : IsMonomial (f :: fs)) (hg : IsMonomial (g :: gs))
    (h : exponents (f :: fs) = exponents (g :: gs)) : ¬ f.name < g.name := by
  intro hlt
  have hz : exponents (g :: gs) f.name = 0 := by
    refine exponents_eq_zero_of_lt fun x hx => ?_
    rcases List.mem_cons.mp hx with rfl | hx
    · exact hlt
    · exact hlt.trans (hg.head_lt x hx)
  have := hf.exponents_head_pos
  rw [h, hz] at this
  exact absurd this (lt_irrefl 0)

/-- **The exponents of a monomial tell the product.** -/
theorem IsMonomial.eq_of_exponents : ∀ {fs gs : List (Factor Base)}, IsMonomial fs →
    IsMonomial gs → exponents fs = exponents gs → fs = gs
  | [], [], _, _, _ => rfl
  | [], _ :: _, _, hg, h => absurd h.symm hg.exponents_cons_ne_zero
  | _ :: _, [], hf, _, h => absurd h hf.exponents_cons_ne_zero
  | f :: fs, g :: gs, hf, hg, h => by
    have hn : f.name = g.name :=
      le_antisymm (not_lt.mp (hg.head_not_lt hf h.symm)) (not_lt.mp (hf.head_not_lt hg h))
    have hf' := hf.powers f List.mem_cons_self
    have hg' := hg.powers g List.mem_cons_self
    have he : f.exponent.toNat = g.exponent.toNat := by
      rw [← hf.exponents_head, ← hg.exponents_head, h, hn]
    have hfg : f = g := by
      have hf2 := hf'.2
      have hg2 := hg'.2
      exact Factor.ext_name hf' hg' hn (by omega)
    subst hfg
    rw [exponents_cons, exponents_cons, add_right_inj] at h
    rw [IsMonomial.eq_of_exponents hf.tail hg.tail h]

/-- The sum of the exponents of a product. -/
theorem exponents_degree (fs : List (Factor Base)) :
    (exponents fs).degree = (fs.map fun f => f.exponent.toNat).sum := by
  induction fs with
  | nil => simp
  | cons f fs ih => rw [exponents_cons, map_add, ih, Finsupp.degree_single]; simp

/-- A monomial of degree at most one is empty or a symbol. -/
theorem exponents_degree_le_one {fs : List (Factor Base)} (h : ∀ f ∈ fs, f.IsPower) :
    (exponents fs).degree ≤ 1 ↔ fs = [] ∨ ∃ name, fs = [⟨.symbol name, 1⟩] := by
  rw [exponents_degree]
  constructor
  · intro hd
    rcases fs with _ | ⟨f, _ | ⟨g, fs⟩⟩
    · exact .inl rfl
    · have hf := h f List.mem_cons_self
      have hf2 := hf.2
      simp only [List.map_cons, List.map_nil, List.sum_cons, List.sum_nil] at hd
      have he : f.exponent = 1 := by omega
      refine .inr ⟨f.name, ?_⟩
      rw [← hf.1, ← he]
    · have hf2 := (h f List.mem_cons_self).2
      have hg2 := (h g (List.mem_cons_of_mem _ List.mem_cons_self)).2
      simp only [List.map_cons, List.sum_cons] at hd
      omega
  · rintro (rfl | ⟨name, rfl⟩) <;> simp

end TensorEquations
