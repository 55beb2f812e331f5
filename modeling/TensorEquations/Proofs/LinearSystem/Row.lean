import TensorEquations.LinearSystem.Row
import TensorEquations.Proofs.Scalar.Symbols

/-!
# Linear rows and polynomials

* `coefficientsPoly`, `LinearRow.Denotes` — the polynomial of a list of coefficients and of a row.
* `LinearRow.addTerm_linear`, `LinearRow.addTerm_ok` — what one term adds to a row, and the terms that
  are refused.
* `LinearRow.ofScalar_first` — a preferred variable is the first one of its row.
* `LinearRow.ofScalar_linear`, `LinearRow.ofScalar_nonlinear` — **a polynomial has a row exactly if its
  degree is at most one, and the row stands for it.**
-/

namespace TensorEquations

open MvPolynomial

/-- The polynomial of a list of coefficients. -/
noncomputable def coefficientsPoly (cs : List (String × Number)) : Poly :=
  (cs.map fun c => C c.2.value * X c.1).sum

@[simp] theorem coefficientsPoly_nil : coefficientsPoly [] = 0 := rfl

@[simp] theorem coefficientsPoly_cons (c : String × Number) (cs : List (String × Number)) :
    coefficientsPoly (c :: cs) = C c.2.value * X c.1 + coefficientsPoly cs := by
  simp [coefficientsPoly]

/-- Exact coefficients of distinct names, and their polynomial. -/
structure CoefficientsDenote (cs : List (String × Number)) (p : Poly) : Prop where
  exact : ∀ c ∈ cs, c.2.isExact = true
  nodup : (cs.map Prod.fst).Nodup
  poly_eq : coefficientsPoly cs = p

/-- A row and the polynomial that it stands for. -/
structure LinearRow.Denotes (r : LinearRow) (p : Poly) : Prop where
  exact : ∀ c ∈ r.coefficients, c.2.isExact = true
  nonzero : ∀ c ∈ r.coefficients, c.2.value ≠ 0
  exact_constant : r.constant.isExact = true
  nodup : (r.coefficients.map Prod.fst).Nodup
  unknowns : r.unknowns.Perm (r.coefficients.map Prod.fst)
  poly_eq : coefficientsPoly r.coefficients + C r.constant.value = p

/-- An error about a term that is not linear. -/
def SystemError.IsNotLinear (e : SystemError) : Prop :=
  (∃ term, e = .severalVariables term) ∨ ∃ term name, e = .notLinear term name

namespace LinearRow

/-! ## Coefficients -/

theorem addCoefficient_names (name : String) (c : Number) : ∀ cs : List (String × Number),
    ∀ n ∈ (addCoefficient name c cs).map Prod.fst, n = name ∨ n ∈ cs.map Prod.fst
  | [], n, h => by simpa [addCoefficient] using h
  | (other, d) :: rest, n, h => by
    unfold addCoefficient at h
    split at h
    · exact .inr h
    · rcases List.mem_cons.mp h with rfl | h
      · exact .inr List.mem_cons_self
      · exact (addCoefficient_names name c rest n h).imp_right (List.mem_cons_of_mem _)

theorem addCoefficient_denotes (name : String) (q : ℚ) : ∀ {cs : List (String × Number)} {p : Poly},
    CoefficientsDenote cs p →
    CoefficientsDenote (addCoefficient name (.exact q) cs) (p + C q * X name)
  | [], p, h => by
    rw [← h.poly_eq]
    refine ⟨?_, by simp [addCoefficient], ?_⟩
    · intro c hc
      rw [List.mem_singleton.mp hc]
      rfl
    · simp only [addCoefficient, Number.zero_eq, Number.exact_add, zero_add, coefficientsPoly_cons,
        coefficientsPoly_nil, Number.value, add_zero]
  | (other, d) :: rest, p, h => by
    have hd := Number.eq_exact_of_isExact (h.exact _ List.mem_cons_self)
    have hrest : CoefficientsDenote rest (coefficientsPoly rest) :=
      ⟨fun c hc => h.exact c (List.mem_cons_of_mem _ hc), (List.nodup_cons.mp h.nodup).2, rfl⟩
    rw [← h.poly_eq]
    unfold addCoefficient
    split
    · rename_i hn
      have hd' : d = .exact d.value := hd
      rw [hd', Number.exact_add]
      refine ⟨?_, h.nodup, ?_⟩
      · intro c hc
        rcases List.mem_cons.mp hc with rfl | hc
        · rfl
        · exact hrest.exact c hc
      · simp only [coefficientsPoly_cons, Number.value, C_add, hn]
        ring
    · rename_i hn
      obtain ⟨he, hnd, hp⟩ := addCoefficient_denotes name q hrest
      refine ⟨?_, List.nodup_cons.mpr ⟨?_, hnd⟩, by rw [coefficientsPoly_cons, hp,
        coefficientsPoly_cons, add_assoc]⟩
      · intro c hc
        rcases List.mem_cons.mp hc with rfl | hc
        · exact h.exact _ List.mem_cons_self
        · exact he c hc
      · intro hmem
        rcases addCoefficient_names name (.exact q) rest other hmem with ho | ho
        · exact hn ho
        · exact (List.nodup_cons.mp h.nodup).1 ho

/-! ## Terms -/

/-- Coefficients and a constant, and their polynomial. -/
structure Found (found : List (String × Number) × Number) (p : Poly) : Prop where
  coefficients : ∃ q, CoefficientsDenote found.1 q ∧ q + C found.2.value = p
  exact : found.2.isExact = true

/-- A term of degree at most one. -/
def IsLinearTerm (t : Term Base) : Prop :=
  t.factors = [] ∨ ∃ name, t.factors = [⟨.symbol name, 1⟩]

theorem ofTerm_eq {t : Term Base} (hc : t.coefficient.isExact = true)
    (hv : t.coefficient.value ≠ 0) (hm : IsMonomial t.factors) : Scalar.ofTerm t = ⟨[t]⟩ := by
  obtain ⟨c, fs⟩ := t
  obtain ⟨q, rfl⟩ : ∃ q, c = .exact q := ⟨_, Number.eq_exact_of_isExact hc⟩
  have hq : q ≠ 0 := hv
  have hz : (Number.exact q).isZero = false := by simpa [Number.isZero] using hq
  unfold Scalar.ofTerm Scalar.ofFactors
  simp only [Number.isUndefined, hz, Bool.false_eq_true, if_false]
  split
  · rfl
  · rename_i ts
    exact absurd (hm.powers _ List.mem_cons_self).1 (by simp)
  · rfl

theorem symbols_ofTerm {t : Term Base} (hc : t.coefficient.isExact = true)
    (hv : t.coefficient.value ≠ 0) (hm : IsMonomial t.factors) :
    (Scalar.ofTerm t).symbols = (t.factors.map Factor.name).eraseDups := by
  rw [ofTerm_eq hc hv hm, Scalar.symbols, Scalar.symbolList_eq, termsSymbols, List.flatMap_singleton,
    List.flatMap_congr fun f hf => (hm.powers f hf).symbolList, ← List.map_eq_flatMap]

/-- A term of degree at most one is added to the row. -/
theorem addTerm_linear {found : List (String × Number) × Number} {p : Poly} {t : Term Base}
    (hc : t.coefficient.isExact = true) (hv : t.coefficient.value ≠ 0) (hm : IsMonomial t.factors)
    (hl : IsLinearTerm t) (h : Found found p) :
    ∃ found', addTerm found t = .ok found' ∧ Found found' (p + t.poly) := by
  obtain ⟨⟨q, hq, hp⟩, hk⟩ := h
  have hsymbols := symbols_ofTerm hc hv hm
  have hce := Number.eq_exact_of_isExact hc
  have hke := Number.eq_exact_of_isExact hk
  unfold addTerm
  simp only [hsymbols]
  rcases hl with hl | ⟨name, hl⟩
  · refine ⟨(found.1, found.2 + t.coefficient), by rw [hl]; rfl, ⟨q, hq, ?_⟩, ?_⟩
    · rw [← hp, Term.poly, hl, hce, hke]
      simp only [Number.exact_add, Number.value, C_add, factorsPoly_nil, mul_one]
      ring
    · rw [hce, hke]
      rfl
  · refine ⟨(addCoefficient name t.coefficient.settled found.1, found.2), ?_,
      ⟨q + C t.coefficient.value * X name, ?_, ?_⟩, hk⟩
    · rw [hl]
      simp [Factor.name, List.eraseDups_cons]
    · rw [hce]
      exact addCoefficient_denotes name _ hq
    · rw [← hp, Term.poly, hl]
      simp only [factorsPoly_cons, Base.poly_symbol, factorsPoly_nil, Int.toNat_one, pow_one, mul_one]
      ring

/-- Only terms of degree at most one are added. -/
theorem addTerm_ok {found found' : List (String × Number) × Number} {t : Term Base}
    (hc : t.coefficient.isExact = true) (hv : t.coefficient.value ≠ 0) (hm : IsMonomial t.factors)
    (h : addTerm found t = .ok found') : IsLinearTerm t := by
  have hsymbols := symbols_ofTerm hc hv hm
  unfold addTerm at h
  simp only at h
  split at h
  · rename_i hs
    rw [hsymbols] at hs
    cases hf : t.factors with
    | nil => exact .inl hf
    | cons f fs =>
        rw [hf, List.map_cons, List.eraseDups_cons] at hs
        cases hs
  · rename_i name _
    split at h
    · rename_i hf
      exact .inr ⟨name, hf⟩
    · cases h
  · cases h

theorem addTerm_error {found : List (String × Number) × Number} {t : Term Base} {e : SystemError}
    (h : addTerm found t = .error e) : e.IsNotLinear := by
  unfold addTerm at h
  simp only at h
  split at h
  · cases h
  · split at h
    · cases h
    · cases h
      exact .inr ⟨_, _, rfl⟩
  · cases h
    exact .inl ⟨_, rfl⟩

theorem foldlM_addTerm_linear : ∀ {ts : List (Term Base)} {found : List (String × Number) × Number}
    {p : Poly}, IsFlat ts → (∀ t ∈ ts, t.coefficient.value ≠ 0) → (∀ t ∈ ts, IsLinearTerm t) →
    Found found p → ∃ found', ts.foldlM addTerm found = .ok found' ∧ Found found' (p + termsPoly ts)
  | [], found, p, _, _, _, h => ⟨found, rfl, by simpa using h⟩
  | t :: ts, found, p, hf, hv, hl, h => by
    obtain ⟨next, hn, hp⟩ := addTerm_linear (hf t List.mem_cons_self).1 (hv t List.mem_cons_self)
      (hf t List.mem_cons_self).2 (hl t List.mem_cons_self) h
    obtain ⟨found', hr, hd⟩ := foldlM_addTerm_linear
      (fun u hu => hf u (List.mem_cons_of_mem _ hu)) (fun u hu => hv u (List.mem_cons_of_mem _ hu))
      (fun u hu => hl u (List.mem_cons_of_mem _ hu)) hp
    refine ⟨found', ?_, by rwa [termsPoly_cons, ← add_assoc]⟩
    rw [List.foldlM_cons, hn]
    exact hr

theorem foldlM_addTerm_ok : ∀ {ts : List (Term Base)} {found found' : List (String × Number) × Number},
    IsFlat ts → (∀ t ∈ ts, t.coefficient.value ≠ 0) → ts.foldlM addTerm found = .ok found' →
    ∀ t ∈ ts, IsLinearTerm t
  | t :: ts, found, found', hf, hv, h, u, hu => by
    have ht := hf t List.mem_cons_self
    rw [List.foldlM_cons] at h
    cases hn : addTerm found t with
    | error e =>
        rw [hn] at h
        cases h
    | ok next =>
        rw [hn] at h
        rcases List.mem_cons.mp hu with rfl | hu
        · exact addTerm_ok ht.1 (hv u List.mem_cons_self) ht.2 hn
        · exact foldlM_addTerm_ok (fun w hw => hf w (List.mem_cons_of_mem _ hw))
            (fun w hw => hv w (List.mem_cons_of_mem _ hw)) h u hu

theorem foldlM_addTerm_error : ∀ {ts : List (Term Base)} {found : List (String × Number) × Number}
    {e : SystemError}, ts.foldlM addTerm found = .error e → e.IsNotLinear
  | t :: ts, found, e, h => by
    rw [List.foldlM_cons] at h
    cases hn : addTerm found t with
    | error e' =>
        rw [hn] at h
        cases h
        exact addTerm_error hn
    | ok next =>
        rw [hn] at h
        exact foldlM_addTerm_error h

/-! ## Rows -/

theorem arrange_perm {names : List String} (h : names.Nodup) (preferred : Option String) :
    (arrange names preferred).Perm names := by
  have hsort := sortBy_perm (fun a b : String => decide (a < b)) names
  unfold arrange
  simp only
  split
  · rename_i name
    split
    · rename_i hc
      have hmem := hsort.mem_iff.mpr (List.contains_iff_mem.mp hc)
      have hnd := hsort.nodup_iff.mpr h
      rw [← hnd.erase_eq_filter]
      exact (List.perm_cons_erase hmem).symm.trans hsort
    · exact hsort
  · exact hsort

/-- A preferred variable that occurs comes first. -/
theorem head?_arrange {names : List String} {name : String} (h : name ∈ names) :
    (arrange names (some name)).head? = some name := by
  unfold arrange
  simp only [List.contains_iff_mem.mpr h, if_true, List.head?_cons]

/-- The variables of a row are the names with a coefficient, arranged. -/
theorem unknowns_ofScalar {s : Scalar} {preferred : Option String} {r : LinearRow}
    (h : ofScalar s preferred = .ok r) : r.unknowns = arrange (r.coefficients.map Prod.fst) preferred := by
  unfold ofScalar at h
  cases hf : (operandTerms s.expand.terms).foldlM addTerm ([], 0) with
  | error e =>
      rw [hf] at h
      cases h
  | ok found =>
      rw [hf] at h
      cases h
      rfl

/-- A preferred variable of a row is its first one. -/
theorem ofScalar_first {s : Scalar} {name : String} {r : LinearRow} (h : ofScalar s (some name) = .ok r)
    (hn : name ∈ r.coefficients.map Prod.fst) : r.unknowns.head? = some name := by
  rw [unknowns_ofScalar h]
  exact head?_arrange hn

theorem coefficientsPoly_filter : ∀ cs : List (String × Number),
    coefficientsPoly (cs.filter (·.2 ≠ 0)) = coefficientsPoly cs
  | [] => rfl
  | c :: cs => by
    rw [List.filter_cons, coefficientsPoly_cons, ← coefficientsPoly_filter cs]
    split
    · rw [coefficientsPoly_cons]
    · rename_i hc
      have h0 : c.2 = 0 := by simpa using hc
      rw [h0, Number.zero_eq]
      simp [Number.value]

/-- **A polynomial of degree at most one has a row that stands for it.** -/
theorem ofScalar_linear {s : Scalar} (h : s.isPolynomial = true) (hd : s.poly.totalDegree ≤ 1)
    (preferred : Option String) : ∃ r, ofScalar s preferred = .ok r ∧ r.Denotes s.poly := by
  have hx := Scalar.expand_isExpanded h
  have hp : termsPoly s.expand.terms = s.poly := (Scalar.expand_denotes h).poly_eq
  have hperm := operandTerms_perm s.expand.terms
  rw [← hp, hx.totalDegree_le_one] at hd
  have hempty : Found ([], 0) 0 :=
    ⟨⟨0, ⟨fun _ hc => (nomatch hc), List.nodup_nil, rfl⟩, by simp [Number.value]⟩, rfl⟩
  obtain ⟨found, hf, ⟨q, hq, hs⟩, hk⟩ := foldlM_addTerm_linear
    (fun t ht => hx.flat t (hperm.mem_iff.mp ht)) (fun t ht => hx.nonzero t (hperm.mem_iff.mp ht))
    (fun t ht => hd t (hperm.mem_iff.mp ht)) hempty
  have hnodup : ((found.1.filter (·.2 ≠ 0)).map Prod.fst).Nodup :=
    hq.nodup.sublist (List.filter_sublist.map _)
  refine ⟨⟨arrange ((found.1.filter (·.2 ≠ 0)).map (·.1)) preferred, found.1.filter (·.2 ≠ 0), found.2⟩,
    ?_, fun c hc => hq.exact c (List.mem_of_mem_filter hc), ?_, hk, hnodup,
    arrange_perm hnodup preferred, ?_⟩
  · unfold ofScalar
    rw [hf]
    rfl
  · intro c hc h0
    have hne := (List.mem_filter.mp hc).2
    rw [Number.eq_exact_of_isExact (hq.exact c (List.mem_of_mem_filter hc)), h0] at hne
    exact absurd hne (by decide)
  · rw [coefficientsPoly_filter, hq.poly_eq, hs, zero_add, termsPoly_perm hperm, hp]

/-- **A polynomial of higher degree has none.** -/
theorem ofScalar_nonlinear {s : Scalar} (h : s.isPolynomial = true) (hd : 1 < s.poly.totalDegree)
    (preferred : Option String) : ∃ e, ofScalar s preferred = .error e ∧ e.IsNotLinear := by
  have hx := Scalar.expand_isExpanded h
  have hp : termsPoly s.expand.terms = s.poly := (Scalar.expand_denotes h).poly_eq
  have hperm := operandTerms_perm s.expand.terms
  cases hf : (operandTerms s.expand.terms).foldlM addTerm ([], 0) with
  | error e => exact ⟨e, by unfold ofScalar; rw [hf]; rfl, foldlM_addTerm_error hf⟩
  | ok found =>
      have hl := foldlM_addTerm_ok (fun t ht => hx.flat t (hperm.mem_iff.mp ht))
        (fun t ht => hx.nonzero t (hperm.mem_iff.mp ht)) hf
      have : s.poly.totalDegree ≤ 1 := by
        rw [← hp, hx.totalDegree_le_one]
        exact fun t ht => hl t (hperm.mem_iff.mpr ht)
      omega

end LinearRow

end TensorEquations
