import TensorEquations.Proofs.Scalar.Interpretation

/-!
# The polynomial of a scalar

Scalars with exact coefficients and positive exponents stand for polynomials over the rationals.

* `polynomials` — the values that scalars have as polynomials.
* `Base.poly`, `factorsPoly`, `Term.poly`, `termsPoly`, `Scalar.poly` — the polynomial of a base, a
  product of powers, a term, a sum of terms and a scalar.
* `Factor.IsPolynomial`, `Term.IsPolynomial` — `Scalar.isPolynomial` part by part; `definesFactor_polynomials` and
  `definesTerm_polynomials` say that these are the powers and terms with a polynomial as their value.
* `Scalar.valueAt` — the value of a scalar at an assignment of rationals to the symbols.
-/

namespace TensorEquations

open MvPolynomial

/-- Polynomials over the rationals in the symbols. -/
abbrev Poly := MvPolynomial String ℚ

/-! ## Polynomials -/

/-- Positive powers of polynomials are polynomials. -/
noncomputable def polynomials : Interpretation Poly where
  number := C
  symbol := X
  power a n := a ^ n.toNat
  Admits _ n := 0 < n
  admits_one _ := one_pos
  power_one _ := pow_one _
  power_zero h := absurd h (lt_irrefl 0)
  admits_add := add_pos
  power_add hm hn := by rw [Int.toNat_add hm.le hn.le, pow_add]

/-- The polynomial of a base. -/
noncomputable def Base.poly : Base → Poly :=
  Base.fold X fun ts => (ts.map fun t =>
    C t.coefficient.value * (t.factors.map fun f => f.base ^ f.exponent.toNat).prod).sum

/-- The polynomial of a product of powers. -/
noncomputable def factorsPoly (fs : List (Factor Base)) : Poly :=
  (fs.map fun f => f.base.poly ^ f.exponent.toNat).prod

/-- The polynomial of a term. -/
noncomputable def Term.poly (t : Term Base) : Poly := C t.coefficient.value * factorsPoly t.factors

/-- The polynomial of a sum of terms. -/
noncomputable def termsPoly (ts : List (Term Base)) : Poly := (ts.map Term.poly).sum

/-- The polynomial of a scalar. -/
noncomputable def Scalar.poly (s : Scalar) : Poly := termsPoly s.terms

/-- The value of a scalar when its symbols take rational values. -/
noncomputable def Scalar.valueAt (ρ : String → ℚ) (s : Scalar) : ℚ := eval ρ s.poly

@[simp] theorem Base.poly_symbol (name : String) : (Base.symbol name).poly = X name := rfl

@[simp] theorem Base.poly_group (ts : List (Term Base)) : (Base.group ts).poly = termsPoly ts :=
  polynomials.base_group ts

@[simp] theorem factorsPoly_nil : factorsPoly [] = 1 := rfl

@[simp] theorem factorsPoly_cons (f : Factor Base) (fs : List (Factor Base)) :
    factorsPoly (f :: fs) = f.base.poly ^ f.exponent.toNat * factorsPoly fs := by
  simp [factorsPoly]

@[simp] theorem factorsPoly_append (fs gs : List (Factor Base)) :
    factorsPoly (fs ++ gs) = factorsPoly fs * factorsPoly gs := by
  simp [factorsPoly]

@[simp] theorem termsPoly_nil : termsPoly [] = 0 := rfl

@[simp] theorem termsPoly_cons (t : Term Base) (ts : List (Term Base)) :
    termsPoly (t :: ts) = t.poly + termsPoly ts := by
  simp [termsPoly]

@[simp] theorem termsPoly_append (ts us : List (Term Base)) :
    termsPoly (ts ++ us) = termsPoly ts + termsPoly us := by
  simp [termsPoly]

theorem termsPoly_perm {ts us : List (Term Base)} (h : ts.Perm us) :
    termsPoly ts = termsPoly us := polynomials.terms_perm h

/-! ## Exact coefficients and positive exponents -/

/-- Whether a base is a symbol or a polynomial. -/
def Base.isPolynomial : Base → Bool :=
  Base.fold (fun _ => true) fun ts => ts.all fun t =>
    t.coefficient.isExact && t.factors.all fun f => 0 < f.exponent && f.base

/-- A positive power of a polynomial base. -/
def Factor.IsPolynomial (f : Factor Base) : Prop := 0 < f.exponent ∧ f.base.isPolynomial = true

/-- An exact multiple of a product of positive powers. -/
def Term.IsPolynomial (t : Term Base) : Prop :=
  t.coefficient.isExact = true ∧ ∀ f ∈ t.factors, f.IsPolynomial

@[simp] theorem Base.isPolynomial_symbol (name : String) :
    (Base.symbol name).isPolynomial = true := rfl

theorem all_foldTerms_iff (ts : List (Term Base)) :
    (Base.foldTerms (fun _ => true) (fun ts => ts.all fun t => t.coefficient.isExact &&
      t.factors.all fun f => 0 < f.exponent && f.base) ts).all (fun t =>
        t.coefficient.isExact && t.factors.all fun f => 0 < f.exponent && f.base) = true ↔
      ∀ t ∈ ts, t.IsPolynomial := by
  rw [Base.foldTerms_eq_map, List.all_map, List.all_eq_true]
  refine forall₂_congr fun t _ => ?_
  simp only [Function.comp, Term.map, Bool.and_eq_true, List.all_map, List.all_eq_true,
    Term.IsPolynomial, Factor.IsPolynomial, Factor.map]
  exact and_congr_right fun _ => forall₂_congr fun f _ => and_congr_left' decide_eq_true_iff

theorem Base.isPolynomial_group {ts : List (Term Base)} :
    (Base.group ts).isPolynomial = true ↔ ∀ t ∈ ts, t.IsPolynomial := all_foldTerms_iff ts

theorem Scalar.isPolynomial_iff {s : Scalar} :
    s.isPolynomial = true ↔ ∀ t ∈ s.terms, t.IsPolynomial := all_foldTerms_iff s.terms

theorem definesBase_polynomials (b : Base) : polynomials.DefinesBase b ↔ b.isPolynomial = true := by
  induction b using Base.induction with
  | symbol name => exact ⟨fun _ => rfl, fun _ => .symbol name⟩
  | group ts ih =>
    rw [polynomials.definesBase_group, Base.isPolynomial_group]
    refine forall₂_congr fun t ht => ⟨fun h => ⟨h.exact, fun f hf => ?_⟩, fun h => ⟨h.1, fun f hf => ?_⟩⟩
    · exact ⟨(h.factors f hf).admits, (ih t ht f hf).mp (h.factors f hf).base⟩
    · exact ⟨(h.2 f hf).1, (ih t ht f hf).mpr (h.2 f hf).2⟩

theorem definesFactor_polynomials {f : Factor Base} : polynomials.DefinesFactor f ↔ f.IsPolynomial :=
  ⟨fun h => ⟨h.admits, (definesBase_polynomials f.base).mp h.base⟩,
    fun h => ⟨h.1, (definesBase_polynomials f.base).mpr h.2⟩⟩

theorem definesTerm_polynomials {t : Term Base} : polynomials.DefinesTerm t ↔ t.IsPolynomial :=
  ⟨fun h => ⟨h.exact, fun f hf => definesFactor_polynomials.mp (h.factors f hf)⟩,
    fun h => ⟨h.1, fun f hf => definesFactor_polynomials.mpr (h.2 f hf)⟩⟩

theorem Number.eq_exact_of_isExact {c : Number} (h : c.isExact = true) :
    c = .exact c.value := by
  cases c with
  | exact q => rfl
  | decimal q => simp [Number.isExact] at h
  | infinite m => simp [Number.isExact] at h
  | undefined => simp [Number.isExact] at h

end TensorEquations
