import TensorEquations.Proofs.Coefficient.Settled
import TensorEquations.Proofs.Equation.Body
import TensorEquations.Proofs.Equation.Consistency

/-!
# Registries that advance

* `Registry.settled?` — the tensor of a coefficient once its queue has been run.
* `Registry.Advances` — every finished coefficient stays finished, and all settled tensors become their images
  under one homomorphism.
* `Registry.IsPolynomial.advances_put`, `Registry.IsPolynomial.advances_observeAll` — changes of coefficients
  move nothing.
* `Registry.IsPolynomial.solve`, `Registry.IsPolynomial.advances_takes` — **a solve that succeeds moves all
  settled tensors by its substitution; one that fails changes nothing.**
* `Registry.IsPolynomial.solve_isOk` — a solve fails for no other reason than its program.
* `Equation.Holds`, `Registry.Advances.holds`, `Registry.IsPolynomial.solve_holds` — **an equation that holds
  keeps holding, and a solved equation holds.**
-/

namespace TensorEquations

open Scalar (Maps Same)

namespace Registry

variable {r r' : Registry} {k : CoefficientKey} {c c' : Coefficient} {e : Equation} {s : Substitution}
  {φ : Poly →ₐ[ℚ] Poly}

/-! ## Settled registries -/

/-- The tensor of a coefficient once its queue has been run. -/
def settled? (r : Registry) (k : CoefficientKey) : Option Tensor :=
  (r.find? k).bind fun c => c.settle.tensor

theorem tensor?_lockAll (r : Registry) (ks : List CoefficientKey) :
    (r.lockAll ks).tensor? k = r.tensor? k := by
  unfold tensor?
  rw [find?_lockAll]
  split
  · cases r.find? k <;> rfl
  · rfl

theorem bindings_lockAll (r : Registry) (ks : List CoefficientKey) (e : Equation) :
    (r.lockAll ks).bindings e = r.bindings e :=
  Equation.values_eq_of_tensors fun _ _ => tensor?_lockAll r ks

/-- Coefficients without a queue are settled already. -/
theorem values_settled? (h : ∀ k ∈ e.coefficients, ∀ c, r.find? k = some c → c.queue = []) :
    e.values r.settled? = r.bindings e := by
  refine Equation.values_eq_of_tensors fun k hk => ?_
  unfold settled? tensor?
  cases hc : r.find? k with
  | none => rfl
  | some c => exact congrArg Coefficient.tensor (Coefficient.settle_of_empty (h k hk c hc))

/-- An evaluation that is not a given one runs the program of the equation. -/
theorem evaluate_eq_ok (hgiven : e.given = none) (h : (r.evaluate e).2 = .ok s) :
    ((Interpreter.start (r.bindings e)).evaluate e.reading.expression).1 = .ok (.substitution s) := by
  unfold evaluate at h
  rw [hgiven] at h
  simp only at h
  split at h
  · rename_i heq
    rw [heq, Except.ok.inj h]
  · cases h
  · cases h

/-! ## Polynomial registries -/

/-- Every coefficient has polynomials only. -/
def IsPolynomial (r : Registry) : Prop := ∀ c ∈ r.coefficients, c.IsPolynomial

theorem isPolynomial_iff : r.IsPolynomial ↔ ∀ k c, r.find? k = some c → c.IsPolynomial :=
  ⟨fun h _ c hc => h c (mem_of_find? hc), fun h c hc => h c.key c (find?_key hc)⟩

theorem isPolynomial_empty : empty.IsPolynomial := fun _ hc => (nomatch hc)

theorem bindings_isPolynomial (h : ∀ k t, r.tensor? k = some t → t.IsPolynomial) (e : Equation) :
    (r.bindings e).IsPolynomial := by
  refine Equation.values_related fun k _ => ?_
  cases ht : r.tensor? k with
  | none => exact .none
  | some t => exact .some ((Tensor.related_same (P := Scalar.IsPolynomial)).mpr (h k t ht))

/-- The second registry has polynomials only, and its settled tensors are images of those in the first one. -/
structure Advances (φ : Poly →ₐ[ℚ] Poly) (r r' : Registry) : Prop where
  isPolynomial : r'.IsPolynomial
  moves : ∀ k c, r.find? k = some c → ∃ c', r'.find? k = some c' ∧ c.Moves φ c'

theorem Advances.isReady (h : Advances φ r r') (hready : e.isReady r = true) : e.isReady r' = true := by
  refine isReady_iff.mpr fun k hk => ?_
  obtain ⟨c, hc, hf⟩ := isReady_iff.mp hready k hk
  obtain ⟨c', hc', hmoves⟩ := h.moves k c hc
  exact ⟨c', hc', (hmoves hf).1⟩

theorem Advances.image (h : Advances φ r r') (hready : e.isReady r = true) :
    e.Image φ r.settled? r'.settled? := by
  intro k hk
  obtain ⟨c, hc, hf⟩ := isReady_iff.mp hready k hk
  obtain ⟨c', hc', hmoves⟩ := h.moves k c hc
  obtain ⟨-, t, t', ht, ht', himage⟩ := hmoves hf
  refine ⟨t, t', ?_, ?_, himage⟩
  · rw [settled?, hc]
    exact ht
  · rw [settled?, hc']
    exact ht'

namespace IsPolynomial

theorem isConsistent (h : r.IsPolynomial) : r.IsConsistent := fun c hc => (h c hc).toIsConsistent

theorem advances_refl (h : r.IsPolynomial) : Advances (AlgHom.id ℚ Poly) r r :=
  ⟨h, fun k c hc => ⟨c, hc, (isPolynomial_iff.mp h k c hc).moves rfl rfl⟩⟩

theorem advances_of_eq (h : r.IsPolynomial) (hr : r' = r) : Advances (AlgHom.id ℚ Poly) r r' := by
  rw [hr]
  exact h.advances_refl

/-- One coefficient changed. -/
theorem advances_put (h : r.IsPolynomial) (hc : r.find? k = some c) (hkey : c'.key = c.key)
    (hc' : c'.IsPolynomial) (hmoves : c.Moves (AlgHom.id ℚ Poly) c') :
    Advances (AlgHom.id ℚ Poly) r (r.put c') := by
  refine ⟨forall_put h hc', fun j d hd => ?_⟩
  rw [find?_put_of_find? hc hkey]
  split
  · rename_i hj
    obtain rfl := Option.some.inj (hd.symm.trans (hj ▸ hc))
    exact ⟨c', rfl, hmoves⟩
  · exact ⟨d, hd, (isPolynomial_iff.mp h j d hd).moves rfl rfl⟩

theorem advances_modify (h : r.IsPolynomial) {f : Coefficient → Coefficient} (hf : ∀ c, (f c).key = c.key)
    (hpolynomial : ∀ c, c.IsPolynomial → (f c).IsPolynomial ∧ c.Moves (AlgHom.id ℚ Poly) (f c)) :
    Advances (AlgHom.id ℚ Poly) r (r.modify k f) := by
  cases hc : r.find? k with
  | none =>
      rw [modify_of_none hc f hf]
      exact h.advances_refl
  | some c =>
      obtain ⟨hpolynomial, hmoves⟩ := hpolynomial c (isPolynomial_iff.mp h k c hc)
      rw [← put_eq_modify hf hc]
      exact h.advances_put hc (hf c) hpolynomial hmoves

/-- Coefficients observed, of which some may be new. -/
theorem advances_observeAll (h : r.IsPolynomial) (o : Observer) {ks : List CoefficientKey} (hn : ks.Nodup) :
    Advances (AlgHom.id ℚ Poly) r (r.observeAll o ks) := by
  refine ⟨forall_observeAll Coefficient.IsPolynomial.open_coefficient (fun c hc => hc.observe o) ks h,
    fun j d hd => ?_⟩
  have hpolynomial := isPolynomial_iff.mp h j d hd
  rw [find?_observeAll hn, hd]
  split
  · exact ⟨_, rfl, hpolynomial.moves rfl rfl⟩
  · exact ⟨d, rfl, hpolynomial.moves rfl rfl⟩

theorem advances_register (h : r.IsPolynomial) (k : CoefficientKey) :
    Advances (AlgHom.id ℚ Poly) r (r.register k) := by
  refine ⟨forall_register h (Coefficient.IsPolynomial.open_coefficient k), fun j d hd => ⟨d, ?_, ?_⟩⟩
  · rw [find?_register, hd]
    rfl
  · exact (isPolynomial_iff.mp h j d hd).moves rfl rfl

/-! ## Solves -/

theorem bindings (h : r.IsPolynomial) (e : Equation) : (r.bindings e).IsPolynomial := by
  refine bindings_isPolynomial (fun k t ht => ?_) e
  obtain ⟨c, hc, ht⟩ := Option.bind_eq_some_iff.mp ht
  exact (isPolynomial_iff.mp h k c hc).polynomials t ht

/-- A substitution taken by every coefficient. -/
theorem advances_takes (h : r.IsPolynomial) (hs : s.IsPolynomial)
    (htakes : Pointwise (Coefficient.Takes s) r r') : Advances s.hom r r' := by
  refine ⟨htakes.forall h fun c c' _ htaken hc => (htaken.moves hc hs).1, fun k c hc => ?_⟩
  obtain ⟨c', hc', htaken⟩ := htakes.find? hc
  exact ⟨c', hc', (htaken.moves (isPolynomial_iff.mp h k c hc) hs).2⟩

/-- A coefficient with a tensor is finished. -/
theorem isFinished_of_tensor (h : r.IsPolynomial) {t : Tensor} (ht : r.tensor? k = some t) :
    r.isFinished k = true := by
  obtain ⟨c, hc, ht⟩ := Option.bind_eq_some_iff.mp ht
  rw [isFinished_of_find? hc]
  cases hf : c.isFinished with
  | true => rfl
  | false => exact nomatch ((isPolynomial_iff.mp h k c hc).unfinished hf).symm.trans ht

theorem isReady_of_tensors (h : r.IsPolynomial) (ht : ∀ k ∈ e.coefficients, ∃ t, r.tensor? k = some t) :
    e.isReady r = true := by
  refine List.all_eq_true.mpr fun k hk => ?_
  obtain ⟨t, ht⟩ := ht k hk
  exact h.isFinished_of_tensor ht

/-- **The substitution of a solve is taken by every coefficient, or the solve changes nothing.** -/
theorem solve (h : r.IsPolynomial) (hfree : e.isBlocked r = false) (hgiven : e.given = none) :
    (∃ cause, (r.solve e).2 = .error cause ∧ (r.solve e).1 = r) ∨
    ∃ s, (r.solve e).2 = .ok s ∧ s.IsPolynomial ∧ e.isReady r = true ∧
      Pointwise (Coefficient.Takes s) r (r.solve e).1 ∧
      ((Interpreter.start (r.bindings e)).evaluate e.reading.expression).1 = .ok (.substitution s) := by
  have hnone : ∀ g, e.given = some g → g.handed = [] := fun g hg => (nomatch hgiven.symm.trans hg)
  have hown := holdsOwn h.isConsistent hfree (queuesNothing hnone)
  have hquiet := evaluate_quiet (r := r.lockAll e.acquisition) hnone
  have hafter := afterEvaluation_eq hfree hquiet
  cases hs : (r.solve e).2 with
  | error cause => exact .inl ⟨cause, rfl, (solve_error hown hs).trans hafter⟩
  | ok s =>
      have hfinished : ∀ k ∈ e.acquisition, ∀ c,
          ((r.lockAll e.acquisition).evaluate e).1.find? k = some c →
            c.isFinished = true ∨ c.tensor = none := by
        intro k hk c hc
        rw [hquiet, find?_lockAll, if_pos hk] at hc
        obtain ⟨d, hd, rfl⟩ := Option.map_eq_some_iff.mp hc
        cases hf : d.isFinished with
        | true => exact .inl hf
        | false => exact .inr ((isPolynomial_iff.mp h k d hd).unfinished hf)
      obtain ⟨hevaluate, htensors, htakes⟩ := solve_ok hown hfinished hs
      rw [hafter] at htensors htakes
      have hprogram := evaluate_eq_ok hgiven hevaluate
      rw [bindings_lockAll] at hprogram
      have hpolynomial : s.IsPolynomial := by
        cases Interpreter.evaluate_isPolynomial (h.bindings e) hprogram with
        | substitution hs => exact hs
      have hready := h.isReady_of_tensors fun k hk => htensors k (Equation.mem_acquisition.mpr hk)
      exact .inr ⟨s, rfl, hpolynomial, hready, htakes, hprogram⟩

/-- With polynomials only a solve fails for no other reason than its program. -/
theorem solve_isOk (h : r.IsPolynomial) (hfree : e.isBlocked r = false) (hready : e.isReady r = true)
    (hgiven : e.given = none) (hprogram : ((Interpreter.start (r.bindings e)).evaluate
      e.reading.expression).1 = .ok (.substitution s)) : (r.solve e).2 = .ok s := by
  have hnone : ∀ g, e.given = some g → g.handed = [] := fun g hg => (nomatch hgiven.symm.trans hg)
  have hquiet := evaluate_quiet (r := r.lockAll e.acquisition) hnone
  have hs : s.IsPolynomial := by
    cases Interpreter.evaluate_isPolynomial (h.bindings e) hprogram with
    | substitution hs => exact hs
  have hevaluate : ((r.lockAll e.acquisition).evaluate e).2 = .ok s := by
    unfold evaluate
    rw [hgiven]
    simp only [bindings_lockAll, hprogram]
  have hupdate : ∀ k c, r.find? k = some c → c.isFinished = true →
      ∃ t', s.updateStored c.tensor = .ok t' := by
    intro k c hc hf
    have hpolynomial := isPolynomial_iff.mp h k c hc
    obtain ⟨t, ht⟩ := hpolynomial.tensor hf
    obtain ⟨t', ht', -⟩ := (hpolynomial.polynomials t ht).update hs
    refine ⟨t', ?_⟩
    rw [ht, Substitution.updateStored, ht']
    rfl
  obtain ⟨r', hcarry⟩ := carryOut_of_forall (r := r.lockAll e.acquisition) (s := s) e.nodup_acquisition
    (fun k hk => by
      obtain ⟨c, hc, hf⟩ := isReady_iff.mp hready k (Equation.mem_acquisition.mp hk)
      rw [tensor?_lockAll, tensor?, hc]
      exact hupdate k c hc hf)
    (fun c hc => by
      obtain ⟨hmem, hf, hk⟩ := mem_others.mp hc
      have hfound := find?_key hmem
      rw [find?_lockAll, if_neg hk] at hfound
      exact hupdate c.key c hfound hf)
  rw [solve_eq (holdsOwn h.isConsistent hfree (queuesNothing hnone)), hevaluate, hquiet]
  simp only [hcarry]

end IsPolynomial

end Registry

/-! ## Equations that hold -/

namespace Equation

variable {r r' : Registry} {e e' : Equation} {φ : Poly →ₐ[ℚ] Poly}

/-- All coefficients are finished, and the body vanishes everywhere once all queues have been run. -/
def Holds (r : Registry) (e : Equation) : Prop :=
  e.isReady r = true ∧ ∀ E, e.body? = some E → E.isIn .polynomial = true →
    ∀ ρ, e.VanishesAt r.settled? ρ

theorem holds_congr (h : e'.reading = e.reading) : e'.Holds r ↔ e.Holds r := by
  simp only [Holds, isReady_congr h, body?_congr h, vanishesAt_congr h]

/-- Whether an equation holds has nothing to do with its state. -/
theorem holds_state (state : EquationState) : ({ e with state := state } : Equation).Holds r ↔ e.Holds r := by
  have hreading : ({ e with state := state } : Equation).reading = e.reading := rfl
  exact holds_congr hreading

/-- **An equation that holds keeps holding.** -/
theorem Holds.advance (h : e.Holds r) (hadvances : Registry.Advances φ r r') : e.Holds r' :=
  ⟨hadvances.isReady h.1, fun E hbody hE _ =>
    ((hadvances.image h.1).vanishesAt hbody hE).mpr (h.2 E hbody hE _)⟩

end Equation

/-- **A solved equation holds.** -/
theorem Registry.IsPolynomial.solve_holds {r : Registry} {e : Equation} (h : r.IsPolynomial)
    (hfree : e.isBlocked r = false) (hgiven : e.given = none) {s : Substitution}
    (hs : (r.solve e).2 = .ok s) : e.Holds (r.solve e).1 := by
  rcases h.solve hfree hgiven with ⟨_, herror, -⟩ | ⟨s', -, hs', hready, htakes, hprogram⟩
  · exact nomatch herror.symm.trans hs
  have hadvances := h.advances_takes hs' htakes
  refine ⟨hadvances.isReady hready, fun E hbody hE ρ => ?_⟩
  refine ((hadvances.image hready).vanishesAt hbody hE).mpr ?_
  -- Nothing waits in the queues of the equation's own coefficients, for they are free.
  have hsettled : e.values r.settled? = r.bindings e :=
    Registry.values_settled? fun k hk c hc =>
      (Registry.isPolynomial_iff.mp h k c hc).queue (Registry.isBlocked_eq_false.mp hfree k hk c hc)
  rw [Equation.evaluate_program hbody] at hprogram
  obtain ⟨v, hv, hsolved⟩ := bind_eq_ok hprogram
  have hpolynomial := E.evaluate_isPolynomial (h.bindings e) hv
  obtain ⟨hquantity, pairs, heq, hform⟩ := Builtin.solveHomogeneous_ok hpolynomial hsolved
  cases heq
  exact ⟨E, v, hbody, by rw [hsettled, hv], hform.vanishesAt hquantity ρ⟩

end TensorEquations
