import TensorEquations.Proofs.Scalar.Expansion

/-!
# The symbols of a polynomial

* `Scalar.mem_symbols_of_mem_vars` — the variables of the polynomial of a scalar are among its symbols.
* `IsExpanded.mem_symbols` — an expanded sum has no other symbols.
-/

namespace TensorEquations

open MvPolynomial

/-! ## Symbols -/

/-- The symbols of a base, in order and with repetitions. -/
def Base.symbolList : Base → List String :=
  Base.fold (fun name => [name]) fun ts => ts.flatMap fun t => t.factors.flatMap (·.base)

/-- The symbols of a sum of terms, in order and with repetitions. -/
def termsSymbols (ts : List (Term Base)) : List String :=
  ts.flatMap fun t => t.factors.flatMap fun f => f.base.symbolList

theorem foldTerms_symbols (ts : List (Term Base)) :
    ((Base.foldTerms (fun name => [name]) (fun ts : List (Term (List String)) =>
      ts.flatMap fun t => t.factors.flatMap (·.base)) ts).flatMap fun t =>
        t.factors.flatMap (·.base)) = termsSymbols ts := by
  rw [Base.foldTerms_eq_map, List.flatMap_map]
  refine List.flatMap_congr fun t _ => ?_
  rw [Term.map, List.flatMap_map]
  rfl

theorem Base.symbolList_group (ts : List (Term Base)) :
    (Base.group ts).symbolList = termsSymbols ts := foldTerms_symbols ts

theorem Scalar.symbolList_eq (s : Scalar) : s.symbolList = termsSymbols s.terms :=
  foldTerms_symbols s.terms

theorem Scalar.mem_symbols {s : Scalar} {name : String} :
    name ∈ s.symbols ↔ ∃ t ∈ s.terms, ∃ f ∈ t.factors, name ∈ f.base.symbolList := by
  rw [symbols, List.mem_eraseDups, symbolList_eq, termsSymbols]
  simp only [List.mem_flatMap]

theorem Scalar.mem_symbols_symbol {n name : String} : n ∈ (symbol name).symbols ↔ n = name := by
  rw [mem_symbols]
  simp [symbol, Base.symbolList, Base.fold]

theorem Scalar.symbol_injective : Function.Injective symbol := by
  intro m n h
  have hmem : m ∈ (symbol m).symbols := mem_symbols_symbol.mpr rfl
  rw [h] at hmem
  exact mem_symbols_symbol.mp hmem

theorem Factor.IsPower.symbolList {f : Factor Base} (h : f.IsPower) :
    f.base.symbolList = [f.name] := by
  rw [h.1]
  rfl

/-! ## Variables -/

theorem mem_vars_factorsPoly {name : String} : ∀ {fs : List (Factor Base)},
    name ∈ (factorsPoly fs).vars → ∃ f ∈ fs, name ∈ f.base.poly.vars
  | [], h => by simp at h
  | f :: fs, h => by
    rw [factorsPoly_cons] at h
    rcases Finset.mem_union.mp (vars_mul _ _ h) with h | h
    · exact ⟨f, List.mem_cons_self, vars_pow _ _ h⟩
    · obtain ⟨g, hg, hv⟩ := mem_vars_factorsPoly h
      exact ⟨g, List.mem_cons_of_mem _ hg, hv⟩

theorem mem_vars_termsPoly {name : String} : ∀ {ts : List (Term Base)},
    name ∈ (termsPoly ts).vars → ∃ t ∈ ts, ∃ f ∈ t.factors, name ∈ f.base.poly.vars
  | [], h => by simp at h
  | t :: ts, h => by
    rw [termsPoly_cons] at h
    rcases Finset.mem_union.mp (vars_add_subset _ _ h) with h | h
    · rcases Finset.mem_union.mp (vars_mul _ _ h) with h | h
      · simp at h
      · obtain ⟨f, hf, hv⟩ := mem_vars_factorsPoly h
        exact ⟨t, List.mem_cons_self, f, hf, hv⟩
    · obtain ⟨u, hu, hf⟩ := mem_vars_termsPoly h
      exact ⟨u, List.mem_cons_of_mem _ hu, hf⟩

theorem Base.mem_symbolList_of_mem_vars {name : String} (b : Base) (h : name ∈ b.poly.vars) :
    name ∈ b.symbolList := by
  induction b using Base.induction with
  | symbol other =>
      rw [Base.poly_symbol, vars_X, Finset.mem_singleton] at h
      exact List.mem_singleton.mpr h
  | group ts ih =>
      rw [Base.poly_group] at h
      obtain ⟨t, ht, f, hf, hv⟩ := mem_vars_termsPoly h
      rw [Base.symbolList_group, termsSymbols, List.mem_flatMap]
      exact ⟨t, ht, List.mem_flatMap.mpr ⟨f, hf, ih t ht f hf hv⟩⟩

/-- The variables of the polynomial of a scalar are among its symbols. -/
theorem Scalar.mem_symbols_of_mem_vars {s : Scalar} {name : String} (h : name ∈ s.poly.vars) :
    name ∈ s.symbols := by
  obtain ⟨t, ht, f, hf, hv⟩ := mem_vars_termsPoly h
  exact Scalar.mem_symbols.mpr ⟨t, ht, f, hf, f.base.mem_symbolList_of_mem_vars hv⟩

theorem exponents_ne_zero_of_mem {fs : List (Factor Base)} {f : Factor Base} (hf : f ∈ fs)
    (hp : f.IsPower) : exponents fs f.name ≠ 0 := by
  have hle : Finsupp.single f.name f.exponent.toNat ≤ exponents fs :=
    List.single_le_sum (by simp) _ (List.mem_map_of_mem hf)
  have := hle f.name
  have hpos := hp.2
  rw [Finsupp.single_eq_same] at this
  omega

/-- The symbols of an expanded sum are variables of its polynomial. -/
theorem IsExpanded.mem_symbols {ts : List (Term Base)} (h : IsExpanded ts) {name : String}
    (hn : name ∈ (⟨ts⟩ : Scalar).symbols) : name ∈ (termsPoly ts).vars := by
  obtain ⟨t, ht, f, hf, hv⟩ := Scalar.mem_symbols.mp hn
  have hp := (h.flat t ht).2.powers f hf
  rw [hp.symbolList, List.mem_singleton] at hv
  rw [hv]
  exact (mem_vars_iff_mem_support f.name).mpr ⟨_, h.mem_support ht,
    Finsupp.mem_support_iff.mpr (exponents_ne_zero_of_mem hf hp)⟩

end TensorEquations
