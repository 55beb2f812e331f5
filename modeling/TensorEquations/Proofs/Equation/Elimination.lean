import TensorEquations.Proofs.Equation.Independence
import TensorEquations.Proofs.Tensor.General

/-!
# Eliminated symbols

* `Substitution.eliminated` — the symbols on the left sides of a substitution.
* `SolvedForm.not_mem_vars_of_eliminated` — a solved form leaves none of them.
* `Tensor.Avoids`, `Coefficient.Avoids`, `Registry.Avoids` — given symbols do not occur: in a tensor, in the tensor of
  a coefficient once its queue has been run, in any coefficient.
* `Coefficient.Takes.avoids` — what a substitution leaves in the coefficients that take it.
* `Registry.IsPolynomial.solve_eliminates` — **a solve eliminates the symbols on the left sides from all
  coefficients.**
* `Registry.IsPolynomial.solve_avoids` — **no solve brings a symbol in.**
-/

namespace TensorEquations

variable {A X : Set String}

/-! ## Substitutions -/

/-- The symbols on the left sides. -/
def Substitution.eliminated (s : Substitution) : Set String := {n | ∃ pair ∈ s.pairs, n ∈ pair.1.symbols}

theorem Scalar.symbol_symbols (name : String) : (symbol name).symbols = [name] := rfl

namespace SolvedForm

variable {ps : List Poly} {pairs : List (String × Scalar)} {n : String}

theorem mem_eliminated (hn : n ∈ (Substitution.ofSolved pairs).eliminated) : ∃ pair ∈ pairs, pair.1 = n := by
  obtain ⟨_, hpair, hn⟩ := hn
  obtain ⟨pair, hmem, rfl⟩ := List.mem_map.mp hpair
  rw [Scalar.symbol_symbols, List.mem_singleton] at hn
  exact ⟨pair, hmem, hn.symm⟩

/-- **A solved form leaves none of the symbols on its left sides.** -/
theorem not_mem_vars_of_eliminated (h : SolvedForm ps pairs) (hn : n ∈ (Substitution.ofSolved pairs).eliminated)
    (p : Poly) : n ∉ ((Substitution.ofSolved pairs).hom p).vars := by
  obtain ⟨pair, hpair, rfl⟩ := mem_eliminated hn
  exact h.not_mem_vars_hom hpair p

end SolvedForm

/-! ## Tensors -/

namespace Tensor

variable {t : Tensor}

/-- Given symbols do not occur in a tensor. -/
def Avoids (X : Set String) (t : Tensor) : Prop := ∀ n ∈ t.symbols, n ∉ X

theorem Avoids.isOver (h : t.Avoids X) (ht : t.IsPolynomial) : t.IsOver Xᶜ := fun s hs =>
  ⟨ht s hs, fun _ hn => h _ (mem_symbols.mpr ⟨s, hs, Scalar.mem_symbols_of_mem_vars hn⟩)⟩

theorem toList_expand (t : Tensor) : t.expand.toList = t.toList.map Scalar.expand := by
  simp [toList, expand, map]

/-- In an expanded tensor there are no symbols but the variables of its polynomials. -/
theorem avoids_of_isOver (h : t.IsOver Xᶜ) (hexpanded : t.expand = t) : t.Avoids X := by
  intro n hn
  obtain ⟨s, hs, hn⟩ := mem_symbols.mp hn
  have hs' := hs
  rw [← hexpanded, toList_expand] at hs'
  obtain ⟨x, hx, rfl⟩ := List.mem_map.mp hs'
  exact (h _ hs).symbols n ((Scalar.expand_isExpanded (h x hx).isPolynomial).mem_symbols hn)

end Tensor

/-! ## Coefficients -/

namespace Coefficient

variable {c c' : Coefficient} {s : Substitution}

/-- Given symbols do not occur in the tensor of a coefficient once its queue has been run. -/
def Avoids (X : Set String) (c : Coefficient) : Prop := ∀ t, c.settle.tensor = some t → t.Avoids X

theorem avoids_of_settle (h : c.Avoids X) (ht : c'.settle.tensor = c.settle.tensor) : c'.Avoids X :=
  fun t hsettled => h t (ht.symm.trans hsettled)

theorem avoids_of_none (h : c.tensor = none) : c.Avoids X := by
  intro t ht
  unfold settle at ht
  rw [h] at ht
  cases ht

/-- A settled tensor is a tensor that has been settled before, with the substitution carried out. -/
theorem Takes.exists_update (h : c.Takes s c') (hc : c.IsPolynomial) (hs : s.IsPolynomial) {v : Tensor}
    (hv : c'.settle.tensor = some v) :
    ∃ t, c.settle.tensor = some t ∧ t.IsPolynomial ∧ s.update t = .ok v := by
  cases h with
  | @revised t t' _ hl ht hu =>
      rw [settle_of_empty (c := { c with tensor := some t' }) (hc.queue hl)] at hv
      obtain rfl := Option.some.inj hv
      exact ⟨t, (congrArg Coefficient.tensor (settle_of_empty (hc.queue hl))).trans ht, hc.polynomials t ht, hu⟩
  | queued hf _ =>
      obtain ⟨t, ht, hsettled, hpolynomial⟩ := hc.settle hf
      obtain ⟨w, hw, -⟩ := hpolynomial.update hs
      unfold settle at hv
      simp only [ht, Option.map_some, runQueue_append, runQueue, hw] at hv
      obtain rfl := Option.some.inj hv
      exact ⟨_, hsettled, hpolynomial, hw⟩
  | ignored hf =>
      unfold settle at hv
      rw [hc.unfinished hf] at hv
      cases hv

/-- **What a substitution takes out of all polynomials is not in a coefficient that takes it.** -/
theorem Takes.avoids (h : c.Takes s c') (hc : c.IsPolynomial) (hs : s.IsPolynomial)
    (hhom : ∀ p : Poly, (∀ n ∈ p.vars, n ∈ A) → ∀ n ∈ (s.hom p).vars, n ∈ Xᶜ)
    (hA : ∀ t, t.IsPolynomial → c.settle.tensor = some t → t.IsOver A) : c'.Avoids X := by
  intro v hv
  obtain ⟨t, ht, hpolynomial, hu⟩ := h.exists_update hc hs hv
  obtain ⟨hover, hexpanded⟩ := hs.update_isOver hhom (hA t hpolynomial ht) hu
  exact Tensor.avoids_of_isOver hover hexpanded

end Coefficient

/-! ## Registries -/

namespace Registry

variable {r : Registry} {e : Equation} {s : Substitution}

/-- Given symbols do not occur in any coefficient, once all queues have been run. -/
def Avoids (X : Set String) (r : Registry) : Prop := ∀ c ∈ r.coefficients, c.Avoids X

/-- The coefficients of an equation that is not held up are settled. -/
theorem settle_of_isBlocked (hr : r.IsPolynomial) (hfree : e.isBlocked r = false) {k : CoefficientKey}
    (hk : k ∈ e.coefficients) {c : Coefficient} (hc : r.find? k = some c) : c.settle = c :=
  Coefficient.settle_of_empty ((isPolynomial_iff.mp hr k c hc).queue (isBlocked_eq_false.mp hfree k hk c hc))

/-- **A solve eliminates the symbols on the left sides of its substitution from all coefficients**, also from those
that are held, once they are released. -/
theorem IsPolynomial.solve_eliminates (hr : r.IsPolynomial) (hfree : e.isBlocked r = false)
    (hgiven : e.given = none) {E : Expression} (hbody : e.body? = some E) (hs : (r.solve e).2 = .ok s) :
    (r.solve e).1.Avoids s.eliminated := by
  rcases hr.solve hfree hgiven with ⟨_, herror, -⟩ | ⟨s', hs', hpolynomial, -, htakes, hprogram⟩
  · exact nomatch herror.symm.trans hs
  obtain rfl := Except.ok.inj (hs'.symm.trans hs)
  rw [Equation.evaluate_program hbody] at hprogram
  obtain ⟨v, hv, hsolved⟩ := bind_eq_ok hprogram
  obtain ⟨-, pairs, heq, hform⟩ := Builtin.solveHomogeneous_ok (E.evaluate_isPolynomial (hr.bindings e) hv) hsolved
  cases heq
  intro c' hc'
  obtain ⟨c, hc, -, htaken⟩ := htakes.exists_of_mem hc'
  refine htaken.avoids (A := Set.univ) (hr c hc) hpolynomial ?_ ?_
  · exact fun p _ n hn heliminated => hform.not_mem_vars_of_eliminated heliminated p hn
  · exact fun t ht _ x hx => ⟨ht x hx, fun _ _ => Set.mem_univ _⟩

/-- **No solve brings a symbol in.** Its substitution is in the symbols of the tensors that it reads. -/
theorem IsPolynomial.solve_avoids (hr : r.IsPolynomial) (hfree : e.isBlocked r = false) (hgiven : e.given = none)
    (havoids : r.Avoids X) : (r.solve e).1.Avoids X := by
  have hsettled : ∀ c ∈ r.coefficients, ∀ t, t.IsPolynomial → c.settle.tensor = some t → t.IsOver Xᶜ :=
    fun c hc t ht hsettle => (havoids c hc t hsettle).isOver ht
  have hread : ∀ k ∈ e.coefficients, ∀ t, r.tensor? k = some t → t.IsOver Xᶜ := by
    intro k hk t ht
    obtain ⟨c, hc, ht⟩ := Option.bind_eq_some_iff.mp ht
    have hsettle := settle_of_isBlocked hr hfree hk hc
    refine hsettled c (mem_of_find? hc) t ((isPolynomial_iff.mp hr k c hc).polynomials t ht) ?_
    rw [hsettle]
    exact ht
  rcases hr.solve_isOver hfree hgiven hread with hsame | ⟨s, hs, htakes⟩
  · rw [hsame]
    exact havoids
  · intro c' hc'
    obtain ⟨c, hc, -, htaken⟩ := htakes.exists_of_mem hc'
    exact htaken.avoids (hr c hc) hs.isPolynomial (fun _ => hs.mem_vars_hom Set.Subset.rfl) (hsettled c hc)

end Registry

end TensorEquations
