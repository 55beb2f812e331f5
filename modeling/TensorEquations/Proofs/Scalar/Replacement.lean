import Mathlib.Algebra.MvPolynomial.Eval
import TensorEquations.Proofs.Scalar.Symbols

/-!
# Replacement and polynomials

The replacement of a symbol is a homomorphism of polynomials.

* `IsReplaced` — what a part of a scalar has become, if it has changed, compared with its polynomial.
* `rebuildProduct?_replaced`, `rebuildSum?_replaced`, `Base.bind?_replaced` — products, sums and bases.
* `replaceHom` — the homomorphism that puts a polynomial in place of one symbol.
* `Scalar.Denotes.replace`, `Scalar.Denotes.replacePart` — **replacing a symbol in a scalar replaces it
  in the polynomial.**
-/

namespace TensorEquations

open MvPolynomial

/-! ## Changed parts -/

/-- A part with polynomial `p` is to become one with polynomial `q`: either it has, or nothing was to
be changed. -/
def IsReplaced (image : Option Scalar) (p q : Poly) : Prop :=
  match image with
  | some s => s.Denotes q
  | none => q = p

theorem IsReplaced.getD {image : Option Scalar} {p q : Poly} {s : Scalar} (h : IsReplaced image p q)
    (hs : s.Denotes p) : (image.getD s).Denotes q := by
  cases image with
  | some s => exact h
  | none =>
      rw [show q = p from h]
      exact hs

section Replacement

variable (φ : Poly →ₐ[ℚ] Poly)

/-- A power and what it has become. -/
def Factor.IsReplaced (part : Changed (Factor Base)) : Prop :=
  part.1.IsPolynomial ∧ TensorEquations.IsReplaced part.2 (part.1.base.poly ^ part.1.exponent.toNat)
    (φ (part.1.base.poly ^ part.1.exponent.toNat))

/-- A term and what it has become. -/
def Term.IsReplaced (part : Changed (Term Base)) : Prop :=
  part.1.IsPolynomial ∧ TensorEquations.IsReplaced part.2 part.1.poly (φ part.1.poly)

variable {φ}

theorem operands_number_denote (q : ℚ) :
    (∀ x ∈ (⟨.exact q, []⟩ : Term Base).operands, x.isPolynomial = true) ∧
      ((⟨.exact q, []⟩ : Term Base).operands.map Scalar.poly).prod = C q := by
  have hoperands : (⟨.exact q, []⟩ : Term Base).operands =
      [Scalar.number (.exact q)].filter (· ≠ 1) := by
    rw [Term.operands, (operandFactors_perm []).eq_nil]
    simp
  have hn := Scalar.number_denotes q
  rw [hoperands, Scalar.prod_filter_ne_one]
  refine ⟨fun x hx => ?_, by simp [hn.poly_eq]⟩
  rw [List.mem_singleton.mp (List.mem_of_mem_filter hx)]
  exact hn.isPolynomial

theorem forall_eq_none_of_not_any {α : Type} {parts : List (Changed α)}
    (h : ¬ parts.any Changed.isChanged = true) : ∀ part ∈ parts, part.2 = none := by
  intro part hp
  rw [List.any_eq_true] at h
  cases hn : part.2 with
  | none => rfl
  | some s => exact absurd ⟨part, hp, by rw [Changed.isChanged, hn]; rfl⟩ h

/-- A list of parts with their images, in any order. -/
theorem images_denote {α : Type} (old : α → Scalar) (p : α → Poly) {parts sorted : List (Changed α)}
    (hperm : sorted.Perm parts)
    (h : ∀ part ∈ parts, (old part.1).Denotes (p part.1) ∧ IsReplaced part.2 (p part.1) (φ (p part.1))) :
    (∀ x ∈ sorted.map fun part => part.2.getD (old part.1), x.isPolynomial = true) ∧
      ((sorted.map fun part => part.2.getD (old part.1)).map Scalar.poly).Perm
        (parts.map fun part => φ (p part.1)) := by
  have hd : ∀ part ∈ parts, (part.2.getD (old part.1)).Denotes (φ (p part.1)) :=
    fun part hp => (h part hp).2.getD (h part hp).1
  refine ⟨?_, ?_⟩
  · intro x hx
    obtain ⟨part, hp, rfl⟩ := List.mem_map.mp hx
    exact (hd part (hperm.mem_iff.mp hp)).isPolynomial
  · have hpoly : sorted.map (Scalar.poly ∘ fun part => part.2.getD (old part.1)) =
        sorted.map fun part => φ (p part.1) :=
      List.map_congr_left fun part hp => (hd part (hperm.mem_iff.mp hp)).poly_eq
    rw [List.map_map, hpoly]
    exact hperm.map _

theorem rebuildProduct?_replaced (q : ℚ) {parts : List (Changed (Factor Base))}
    (h : ∀ part ∈ parts, Factor.IsReplaced φ part) :
    IsReplaced (rebuildProduct? (.exact q) parts) (C q * factorsPoly (parts.map Prod.fst))
      (φ (C q * factorsPoly (parts.map Prod.fst))) := by
  have hφ : φ (C q * factorsPoly (parts.map Prod.fst)) =
      C q * (parts.map fun part => φ (part.1.base.poly ^ part.1.exponent.toNat)).prod := by
    rw [map_mul, algHom_C, factorsPoly, map_list_prod, List.map_map, List.map_map]
    rfl
  unfold rebuildProduct?
  split
  · obtain ⟨hn, hq⟩ := operands_number_denote q
    have hperm := sortBy_keyed_perm (fun a b => Key.before a.1 b.1)
      (fun part : Changed (Factor Base) => (part.1.map Base.operandKey).operandKey) parts
    obtain ⟨hi, hv⟩ := images_denote Scalar.ofFactor (fun f => f.base.poly ^ f.exponent.toNat) hperm
      fun part hp => ⟨Scalar.ofFactor_denotes (h part hp).1, (h part hp).2⟩
    have hall := Scalar.product_denotes fun x hx => (List.mem_append.mp hx).elim (hn x) (hi x)
    refine ⟨hall.isPolynomial, hall.poly_eq.trans ?_⟩
    rw [List.map_append, List.prod_append, hq, hv.prod_eq, hφ]
  · rename_i hany
    have hnone := forall_eq_none_of_not_any hany
    have hsame : (parts.map fun part => φ (part.1.base.poly ^ part.1.exponent.toNat)) =
        (parts.map Prod.fst).map fun f => f.base.poly ^ f.exponent.toNat := by
      rw [List.map_map]
      refine List.map_congr_left fun part hp => ?_
      have := (h part hp).2
      rw [hnone part hp] at this
      exact this
    show φ _ = _
    rw [hφ, hsame]
    rfl

theorem rebuildSum?_replaced {parts : List (Changed (Term Base))}
    (h : ∀ part ∈ parts, Term.IsReplaced φ part) :
    IsReplaced (rebuildSum? parts) (termsPoly (parts.map Prod.fst))
      (φ (termsPoly (parts.map Prod.fst))) := by
  have hφ : φ (termsPoly (parts.map Prod.fst)) = (parts.map fun part => φ part.1.poly).sum := by
    rw [termsPoly, map_list_sum, List.map_map, List.map_map]
    rfl
  unfold rebuildSum?
  split
  · simp only [List.partition_eq_filter_filter]
    have hperm : (parts.filter (fun part => part.1.isNumber) ++
        (sortBy (fun a b => Key.before a.1 b.1) ((parts.filter (not ∘ fun part => part.1.isNumber)).map
          fun part => ((part.1.map Base.operandKey).operandKey, part))).map (·.2)).Perm parts :=
      ((sortBy_keyed_perm _ (fun part : Changed (Term Base) =>
        (part.1.map Base.operandKey).operandKey) _).append_left _).trans
        (List.filter_append_perm _ parts)
    obtain ⟨hi, hv⟩ := images_denote Scalar.ofTerm Term.poly hperm
      fun part hp => ⟨Scalar.ofTerm_denotes (h part hp).1, (h part hp).2⟩
    have hall := Scalar.sum_denotes hi
    exact ⟨hall.isPolynomial, hall.poly_eq.trans (hv.sum_eq.trans hφ.symm)⟩
  · rename_i hany
    have hnone := forall_eq_none_of_not_any hany
    show φ _ = _
    rw [hφ, termsPoly, List.map_map]
    congr 1
    refine List.map_congr_left fun part hp => ?_
    have := (h part hp).2
    rw [hnone part hp] at this
    exact this

/-! ## Bases -/

variable {f : String → Option Scalar}

theorem bindFactors_eq_map (fs : List (Factor Base)) : Base.bindFactors f fs =
    fs.map fun x => (x, (x.base.bind? f).map fun s => s.pow x.exponent) := by
  induction fs with
  | nil => rfl
  | cons x fs ih => rw [Base.bindFactors, ih]; rfl

theorem bindTerms_eq_map (ts : List (Term Base)) : Base.bindTerms f ts =
    ts.map fun t => (t, rebuildProduct? t.coefficient (Base.bindFactors f t.factors)) := by
  induction ts with
  | nil => rfl
  | cons t ts ih => rw [Base.bindTerms, ih]; rfl

theorem IsReplaced.pow {image : Option Scalar} {p : Poly} (h : IsReplaced image p (φ p)) {n : Int}
    (hn : 0 < n) : IsReplaced (image.map fun s => s.pow n) (p ^ n.toNat) (φ (p ^ n.toNat)) := by
  rw [map_pow]
  cases image with
  | some s => exact Scalar.Denotes.pow h hn
  | none => exact congrArg (· ^ n.toNat) (h : φ p = p)

theorem bindTerms_replaced {ts : List (Term Base)} (hts : ∀ t ∈ ts, t.IsPolynomial)
    (h : ∀ t ∈ ts, ∀ x ∈ t.factors, IsReplaced (x.base.bind? f) x.base.poly (φ x.base.poly)) :
    IsReplaced (rebuildSum? (Base.bindTerms f ts)) (termsPoly ts) (φ (termsPoly ts)) := by
  have hparts : ∀ part ∈ Base.bindTerms f ts, Term.IsReplaced φ part := by
    intro part hp
    rw [bindTerms_eq_map] at hp
    obtain ⟨t, ht, rfl⟩ := List.mem_map.mp hp
    have htp := hts t ht
    have hfactors : ∀ part ∈ Base.bindFactors f t.factors, Factor.IsReplaced φ part := by
      intro part hp
      rw [bindFactors_eq_map] at hp
      obtain ⟨x, hx, rfl⟩ := List.mem_map.mp hp
      exact ⟨htp.2 x hx, (h t ht x hx).pow (htp.2 x hx).1⟩
    have hproduct := rebuildProduct?_replaced t.coefficient.value hfactors
    rw [← Number.eq_exact_of_isExact htp.1, bindFactors_eq_map, List.map_map,
      show (Prod.fst ∘ fun x : Factor Base => (x, (x.base.bind? f).map fun s => s.pow x.exponent)) = id
        from rfl, List.map_id, ← bindFactors_eq_map] at hproduct
    exact ⟨htp, hproduct⟩
  have hsum := rebuildSum?_replaced hparts
  rwa [show (Base.bindTerms f ts).map Prod.fst = ts by
    rw [bindTerms_eq_map, List.map_map]; exact List.map_id _] at hsum

theorem Base.bind?_replaced (h : ∀ name, IsReplaced (f name) (X name) (φ (X name))) (b : Base)
    (hb : b.isPolynomial = true) : IsReplaced (b.bind? f) b.poly (φ b.poly) := by
  induction b using Base.induction with
  | symbol name => exact h name
  | group ts ih =>
      have hts := Base.isPolynomial_group.mp hb
      rw [Base.bind?, Base.poly_group]
      exact bindTerms_replaced hts fun t ht x hx => ih t ht x hx ((hts t ht).2 x hx).2

/-- **Replacing symbols in a scalar replaces them in the polynomial.** -/
theorem Scalar.Denotes.bind (h : ∀ name, IsReplaced (f name) (X name) (φ (X name))) {s : Scalar}
    {p : Poly} (hs : s.Denotes p) : (s.bind f).Denotes (φ p) := by
  have hts := hs.terms.isPolynomial
  have hreplaced : IsReplaced (s.bind? f) p (φ p) := by
    rw [← hs.poly_eq]
    exact bindTerms_replaced hts fun t ht x hx => x.base.bind?_replaced h ((hts t ht).2 x hx).2
  exact hreplaced.getD hs

end Replacement

/-! ## One symbol -/

/-- The homomorphism that puts a polynomial in place of a symbol. -/
noncomputable def replaceHom (name : String) (q : Poly) : Poly →ₐ[ℚ] Poly :=
  aeval (Function.update X name q)

@[simp] theorem replaceHom_X_self (name : String) (q : Poly) : replaceHom name q (X name) = q := by
  simp [replaceHom]

theorem replaceHom_X_of_ne {name other : String} (h : other ≠ name) (q : Poly) :
    replaceHom name q (X other) = X other := by
  simp [replaceHom, h]

/-- Putting a polynomial with the value of the symbol in its place keeps all values. -/
theorem eval_replaceHom {ρ : String → ℚ} {name : String} {q : Poly} (h : ρ name = eval ρ q)
    (p : Poly) : eval ρ (replaceHom name q p) = eval ρ p := by
  have hhom : ((aeval ρ : Poly →ₐ[ℚ] ℚ).comp (replaceHom name q)) = aeval ρ := by
    refine algHom_ext fun other => ?_
    rw [AlgHom.comp_apply]
    by_cases hn : other = name
    · rw [hn, replaceHom_X_self, aeval_X, aeval_eq_eval]
      exact h.symm
    · rw [replaceHom_X_of_ne hn]
  have := congrArg (fun g : Poly →ₐ[ℚ] ℚ => g p) hhom
  simpa [aeval_eq_eval] using this

namespace Scalar

theorem Denotes.replace {s image : Scalar} {p q : Poly} (hs : s.Denotes p) (hi : image.Denotes q)
    (name : String) : (s.replace name image).Denotes (replaceHom name q p) := by
  refine hs.bind fun other => ?_
  by_cases hn : other = name
  · rw [if_pos hn, hn, replaceHom_X_self]
    exact hi
  · rw [if_neg hn]
    exact replaceHom_X_of_ne hn q

/-- Numbers stay as they are. -/
theorem replace_rational (q : ℚ) (name : String) (image : Scalar) :
    (rational q).replace name image = rational q := by
  rw [rational_eq]
  split <;> rfl

theorem symbol?_symbol (name : String) : (symbol name).symbol? = some name := by
  simp [symbol, symbol?, Number.one_eq]

theorem replacePart_rational (q : ℚ) (name : String) (image : Scalar) :
    (rational q).replacePart (symbol name) image = rational q := by
  unfold replacePart
  split
  · rfl
  · simp only [symbol?_symbol]
    exact replace_rational q name image

/-- **Replacing a symbol as a part replaces it in the polynomial.** -/
theorem Denotes.replacePart {s image : Scalar} {p q : Poly} (hs : s.Denotes p) (hi : image.Denotes q)
    (name : String) : (s.replacePart (symbol name) image).Denotes (replaceHom name q p) := by
  unfold Scalar.replacePart
  split
  · rename_i he
    have hq : q = X name := by
      rw [← hi.poly_eq, ← he, (symbol_denotes name).poly_eq]
    have hid : replaceHom name q = AlgHom.id ℚ Poly := by
      refine algHom_ext fun other => ?_
      by_cases hn : other = name
      · rw [hn, replaceHom_X_self, hq, AlgHom.id_apply]
      · rw [replaceHom_X_of_ne hn, AlgHom.id_apply]
    rw [hid]
    exact hs
  · simp only [symbol?_symbol]
    exact hs.replace hi name

end Scalar

end TensorEquations
