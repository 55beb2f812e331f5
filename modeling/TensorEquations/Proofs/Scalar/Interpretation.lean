import Mathlib.Algebra.MvPolynomial.CommRing
import TensorEquations.Scalar.Expansion

/-!
# Values of scalars

Scalars with exact coefficients have values in every commutative ring where numbers, symbols and powers have values.
There are two such rings: polynomials, where only positive powers have values, and fractions of polynomials, where
only zero has no negative powers. What the operations do with values is the same in both.

* `Base.induction` — induction over the nesting of sums in bases.
* `Interpretation` — the values of numbers, symbols and powers in a ring.
* `Interpretation.base`, `Interpretation.factors`, `Interpretation.term`, `Interpretation.terms`,
  `Interpretation.scalar` — the value of a base, a product of powers, a term, a sum of terms and a scalar.
* `Interpretation.DefinesBase`, `Interpretation.DefinesFactor`, `Interpretation.DefinesTerm` — what has a value.
* `Interpretation.Denotes`, `Interpretation.TermsDenote`, `Interpretation.FactorsDenote` — a scalar, a sum or a
  product together with its value.
-/

namespace TensorEquations

/-! ## Induction -/

namespace Base

section Induction

variable {P : Base → Prop}

mutual

theorem induction (symbol : ∀ name, P (.symbol name))
    (group : ∀ ts, (∀ t ∈ ts, ∀ f ∈ t.factors, P f.base) → P (.group ts)) : ∀ b, P b
  | .symbol name => symbol name
  | .group ts => group ts (induction_terms symbol group ts)

theorem induction_terms (symbol : ∀ name, P (.symbol name))
    (group : ∀ ts, (∀ t ∈ ts, ∀ f ∈ t.factors, P f.base) → P (.group ts)) :
    ∀ (ts : List (Term Base)), ∀ t ∈ ts, ∀ f ∈ t.factors, P f.base
  | [], _, h => nomatch h
  | ⟨_, fs⟩ :: ts, t, h => by
    rcases List.mem_cons.mp h with rfl | h
    · exact induction_factors symbol group fs
    · exact induction_terms symbol group ts t h

theorem induction_factors (symbol : ∀ name, P (.symbol name))
    (group : ∀ ts, (∀ t ∈ ts, ∀ f ∈ t.factors, P f.base) → P (.group ts)) :
    ∀ (fs : List (Factor Base)), ∀ f ∈ fs, P f.base
  | [], _, h => nomatch h
  | ⟨b, _⟩ :: fs, f, h => by
    rcases List.mem_cons.mp h with rfl | h
    · exact induction symbol group b
    · exact induction_factors symbol group fs f h

end

end Induction

end Base

/-! ## Values -/

/-- The values of numbers and symbols in a ring, and the powers of its elements. An element may have no powers to
some exponents; powers to exponents that it admits add up. -/
structure Interpretation (R : Type) [CommRing R] where
  number : ℚ →+* R
  symbol : String → R
  power : R → ℤ → R
  Admits : R → ℤ → Prop
  admits_one : ∀ a, Admits a 1
  power_one : ∀ a, power a 1 = a
  power_zero : ∀ {a}, Admits a 0 → power a 0 = 1
  admits_add : ∀ {a m n}, Admits a m → Admits a n → Admits a (m + n)
  power_add : ∀ {a m n}, Admits a m → Admits a n → power a (m + n) = power a m * power a n

namespace Interpretation

variable {R : Type} [CommRing R] (I : Interpretation R)

/-- The value of a base. -/
def base : Base → R :=
  Base.fold I.symbol fun ts => (ts.map fun t =>
    I.number t.coefficient.value * (t.factors.map fun f => I.power f.base f.exponent).prod).sum

/-- The value of a product of powers. -/
def factors (fs : List (Factor Base)) : R := (fs.map fun f => I.power (I.base f.base) f.exponent).prod

/-- The value of a term. -/
def term (t : Term Base) : R := I.number t.coefficient.value * I.factors t.factors

/-- The value of a sum of terms. -/
def terms (ts : List (Term Base)) : R := (ts.map I.term).sum

/-- The value of a scalar. -/
def scalar (s : Scalar) : R := I.terms s.terms

@[simp] theorem base_symbol (name : String) : I.base (.symbol name) = I.symbol name := rfl

@[simp] theorem base_group (ts : List (Term Base)) : I.base (.group ts) = I.terms ts := by
  unfold base terms
  simp only [Base.fold, Base.foldTerms_eq_map, List.map_map]
  congr 1
  apply List.map_congr_left
  intro t _
  simp only [Function.comp, Term.map, term, factors, List.map_map]
  rfl

@[simp] theorem factors_nil : I.factors [] = 1 := rfl

@[simp] theorem factors_cons (f : Factor Base) (fs : List (Factor Base)) :
    I.factors (f :: fs) = I.power (I.base f.base) f.exponent * I.factors fs := by
  simp [factors]

@[simp] theorem factors_append (fs gs : List (Factor Base)) :
    I.factors (fs ++ gs) = I.factors fs * I.factors gs := by
  simp [factors]

@[simp] theorem terms_nil : I.terms [] = 0 := rfl

@[simp] theorem terms_cons (t : Term Base) (ts : List (Term Base)) : I.terms (t :: ts) = I.term t + I.terms ts := by
  simp [terms]

@[simp] theorem terms_append (ts us : List (Term Base)) : I.terms (ts ++ us) = I.terms ts + I.terms us := by
  simp [terms]

theorem terms_perm {ts us : List (Term Base)} (h : ts.Perm us) : I.terms ts = I.terms us :=
  (h.map I.term).sum_eq

/-! ## What has a value -/

/-- A symbol, or a sum with exact coefficients and admitted exponents. -/
inductive DefinesBase : Base → Prop
  | symbol (name : String) : DefinesBase (.symbol name)
  | group {ts : List (Term Base)} (exact : ∀ t ∈ ts, t.coefficient.isExact = true)
      (admits : ∀ t ∈ ts, ∀ f ∈ t.factors, I.Admits (I.base f.base) f.exponent)
      (bases : ∀ t ∈ ts, ∀ f ∈ t.factors, DefinesBase f.base) : DefinesBase (.group ts)

/-- An admitted power of a base with a value. -/
structure DefinesFactor (f : Factor Base) : Prop where
  admits : I.Admits (I.base f.base) f.exponent
  base : I.DefinesBase f.base

/-- An exact multiple of a product of such powers. -/
structure DefinesTerm (t : Term Base) : Prop where
  exact : t.coefficient.isExact = true
  factors : ∀ f ∈ t.factors, I.DefinesFactor f

theorem definesBase_group {ts : List (Term Base)} : I.DefinesBase (.group ts) ↔ ∀ t ∈ ts, I.DefinesTerm t := by
  constructor
  · intro h
    cases h with
    | group exact admits bases => exact fun t ht => ⟨exact t ht, fun f hf => ⟨admits t ht f hf, bases t ht f hf⟩⟩
  · intro h
    exact .group (fun t ht => (h t ht).exact) (fun t ht f hf => ((h t ht).factors f hf).admits)
      fun t ht f hf => ((h t ht).factors f hf).base

/-- A scalar and its value. -/
structure Denotes (s : Scalar) (a : R) : Prop where
  defines : ∀ t ∈ s.terms, I.DefinesTerm t
  value : I.scalar s = a

/-- The terms of a sum and its value. -/
structure TermsDenote (ts : List (Term Base)) (a : R) : Prop where
  defines : ∀ t ∈ ts, I.DefinesTerm t
  value : I.terms ts = a

/-- A product of powers and its value. -/
structure FactorsDenote (fs : List (Factor Base)) (a : R) : Prop where
  defines : ∀ f ∈ fs, I.DefinesFactor f
  value : I.factors fs = a

variable {I}

theorem TermsDenote.scalar {ts : List (Term Base)} {a : R} (h : I.TermsDenote ts a) : I.Denotes ⟨ts⟩ a :=
  ⟨h.defines, h.value⟩

theorem Denotes.terms {s : Scalar} {a : R} (h : I.Denotes s a) : I.TermsDenote s.terms a := ⟨h.defines, h.value⟩

end Interpretation

end TensorEquations
