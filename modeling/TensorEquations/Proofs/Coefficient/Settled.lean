import TensorEquations.Proofs.Equation.Solving
import TensorEquations.Proofs.Substitution.Homomorphism

/-!
# Settled coefficients

A held coefficient has its new tensor only when its queue has been run. What it will be by then counts from
the moment when the substitution is accepted.

* `Coefficient.settle` — the queue run and emptied.
* `Coefficient.IsPolynomial` — a polynomial tensor, substitutions of polynomials in the queue, and no tensor
  as long as the coefficient is open.
* `Coefficient.Moves` — the settled tensor becomes its image under a homomorphism.
* `Coefficient.Takes.moves` — **a substitution moves every coefficient that takes it, free or held.**
* `Coefficient.moves_release` — running the queue moves nothing.
-/

namespace TensorEquations

open Scalar (Maps Same)

/-! ## Queues of substitutions -/

/-- A revision that is a substitution of polynomials for symbols. -/
def Revision.IsPolynomial (f : Revision) : Prop := ∃ s : Substitution, s.IsPolynomial ∧ f = s.update

/-- A substitution of polynomials takes a tensor of polynomials to its image. -/
theorem Tensor.IsPolynomial.update {t : Tensor} (h : t.IsPolynomial) {s : Substitution}
    (hs : s.IsPolynomial) : ∃ v, s.update t = .ok v ∧ t.Related (Maps s.hom) v := by
  obtain ⟨v, hv, hrelated⟩ := Substitution.update_related hs h.maps
  rw [AlgHom.comp_id] at hrelated
  exact ⟨v, hv, hrelated⟩

/-- A queue of substitutions runs without a failure. -/
theorem runQueue_isPolynomial : ∀ {fs : List Revision} {t : Tensor}, t.IsPolynomial →
    (∀ f ∈ fs, f.IsPolynomial) → (runQueue t fs).1.IsPolynomial ∧ (runQueue t fs).2 = none
  | [], _, ht, _ => ⟨ht, rfl⟩
  | f :: fs, t, ht, hfs => by
    obtain ⟨s, hs, rfl⟩ := hfs f List.mem_cons_self
    obtain ⟨v, hv, hrelated⟩ := ht.update hs
    rw [runQueue, hv]
    exact runQueue_isPolynomial hrelated.isPolynomial fun g hg => hfs g (List.mem_cons_of_mem _ hg)

namespace Coefficient

/-- The queue run and emptied; the lock stays. -/
def settle (c : Coefficient) : Coefficient :=
  { c with tensor := c.tensor.map fun t => (runQueue t c.queue).1, queue := [] }

/-- A consistent coefficient with polynomials only. -/
structure IsPolynomial (c : Coefficient) : Prop extends IsConsistent c where
  unfinished : c.isFinished = false → c.tensor = none
  polynomials : ∀ t, c.tensor = some t → t.IsPolynomial
  revisions : ∀ f ∈ c.queue, f.IsPolynomial

/-- A finished coefficient stays finished, and its settled tensor becomes its image. -/
def Moves (φ : Poly →ₐ[ℚ] Poly) (c c' : Coefficient) : Prop :=
  c.isFinished = true → c'.isFinished = true ∧ ∃ t t', c.settle.tensor = some t ∧
    c'.settle.tensor = some t' ∧ t.Related (Maps φ) t'

variable {c c' : Coefficient} {s : Substitution}

theorem settle_of_empty (h : c.queue = []) : c.settle = c := by
  cases c with
  | mk key tensor isFinished isLocked queue observers =>
      obtain rfl : queue = [] := h
      cases tensor <;> rfl

namespace IsPolynomial

/-- The settled tensor of a finished coefficient. -/
theorem settle (h : c.IsPolynomial) (hf : c.isFinished = true) :
    ∃ t, c.tensor = some t ∧ c.settle.tensor = some (runQueue t c.queue).1 ∧
      (runQueue t c.queue).1.IsPolynomial := by
  obtain ⟨t, ht⟩ := h.tensor hf
  refine ⟨t, ht, ?_, (runQueue_isPolynomial (h.polynomials t ht) h.revisions).1⟩
  unfold Coefficient.settle
  rw [ht]
  rfl

theorem open_coefficient (k : CoefficientKey) : ({ key := k } : Coefficient).IsPolynomial where
  queue _ := rfl
  tensor hf := nomatch hf
  unfinished _ := rfl
  polynomials _ ht := nomatch ht
  revisions _ hf := nomatch hf

theorem lock (h : c.IsPolynomial) : c.lock.IsPolynomial where
  toIsConsistent := h.toIsConsistent.lock
  unfinished := h.unfinished
  polynomials := h.polynomials
  revisions := h.revisions

theorem observe (h : c.IsPolynomial) (o : Observer) : (c.observe o).IsPolynomial where
  queue := h.queue
  tensor := h.tensor
  unfinished := h.unfinished
  polynomials := h.polynomials
  revisions := h.revisions

theorem complete (h : c.IsPolynomial) {t : Tensor} (ht : t.IsPolynomial) (hc : c.complete t = .ok c') :
    c'.IsPolynomial := by
  have hconsistent := h.toIsConsistent.complete hc
  obtain ⟨-, -, t', ht', rfl⟩ := complete_ok hc
  refine ⟨hconsistent, fun hf => (nomatch hf), fun u hu => ?_, h.revisions⟩
  obtain rfl : t' = u := Option.some.inj hu
  have hsame := (Tensor.related_same (P := Scalar.IsPolynomial)).mpr ht
  have hlabels := hsame.withLabels c.labels
  rw [ht'] at hlabels
  exact (Tensor.related_same (P := Scalar.IsPolynomial)).mp hlabels

end IsPolynomial

/-! ## Moves -/

/-- A coefficient that is finished with the same settled tensor as before. -/
theorem IsPolynomial.moves (h : c.IsPolynomial) (hf : c'.isFinished = c.isFinished)
    (ht : c'.settle.tensor = c.settle.tensor) : c.Moves (AlgHom.id ℚ Poly) c' := by
  intro hfinished
  obtain ⟨t, -, hsettled, hpolynomial⟩ := h.settle hfinished
  exact ⟨hf.trans hfinished, _, _, hsettled, ht.trans hsettled, hpolynomial.maps⟩

theorem moves_of_unfinished {φ : Poly →ₐ[ℚ] Poly} (h : c.isFinished = false) : c.Moves φ c' :=
  fun hf => absurd (h.symm.trans hf) (nomatch ·)

/-- Running the queue on release moves nothing. -/
theorem IsPolynomial.unlock (h : c.IsPolynomial) :
    c.unlock.1.IsPolynomial ∧ c.Moves (AlgHom.id ℚ Poly) c.unlock.1 := by
  have hconsistent := h.toIsConsistent.unlock
  unfold Coefficient.unlock at hconsistent ⊢
  split
  · rename_i hl
    rw [if_pos hl] at hconsistent
    unfold release at hconsistent ⊢
    cases ht : c.tensor with
    | none =>
        rw [ht] at hconsistent
        refine ⟨⟨hconsistent, fun _ => rfl, fun _ hu => (nomatch hu), fun _ hf => (nomatch hf)⟩, ?_⟩
        refine h.moves rfl ?_
        unfold Coefficient.settle
        rw [ht]
        rfl
    | some t =>
        rw [ht] at hconsistent
        have hrun := (runQueue_isPolynomial (h.polynomials t ht) h.revisions).1
        refine ⟨⟨hconsistent, fun hf => ?_, fun u hu => ?_, fun _ hf => (nomatch hf)⟩, ?_⟩
        · exact absurd (ht.symm.trans (h.unfinished hf)) (nomatch ·)
        · obtain rfl := Option.some.inj hu
          exact hrun
        · refine h.moves rfl ?_
          unfold Coefficient.settle
          rw [ht]
          rfl
  · exact ⟨h, h.moves rfl rfl⟩

/-- **A substitution of polynomials moves every coefficient that takes it.** -/
theorem Takes.moves (h : c.IsPolynomial) (hs : s.IsPolynomial) (htakes : c.Takes s c') :
    c'.IsPolynomial ∧ c.Moves s.hom c' := by
  cases htakes with
  | @revised t t' hf hl ht hu =>
      have hq := h.queue hl
      obtain ⟨v, hv, hrelated⟩ := (h.polynomials t ht).update hs
      obtain rfl : v = t' := Except.ok.inj (hv.symm.trans hu)
      refine ⟨⟨⟨h.queue, fun _ => ⟨v, rfl⟩⟩, fun hn => absurd (hf.symm.trans hn) (nomatch ·), fun u hu => ?_,
        h.revisions⟩, fun _ => ⟨hf, t, v, ?_, ?_, hrelated⟩⟩
      · obtain rfl := Option.some.inj hu
        exact hrelated.isPolynomial
      · rw [settle_of_empty hq]
        exact ht
      · rw [settle_of_empty (c := { c with tensor := some v }) hq]
  | queued hf hl =>
      obtain ⟨t, ht, hsettled, hpolynomial⟩ := h.settle hf
      obtain ⟨v, hv, hrelated⟩ := hpolynomial.update hs
      refine ⟨⟨⟨fun hn => absurd (hl.symm.trans hn) (nomatch ·), h.tensor⟩, h.unfinished, h.polynomials,
        fun f hmem => ?_⟩, fun _ => ⟨hf, _, v, hsettled, ?_, hrelated⟩⟩
      · rcases List.mem_append.mp hmem with hmem | hmem
        · exact h.revisions f hmem
        · exact ⟨s, hs, List.mem_singleton.mp hmem⟩
      · unfold Coefficient.settle
        simp only [ht, Option.map_some, runQueue_append, runQueue, hv]
  | ignored hf => exact ⟨h, moves_of_unfinished hf⟩

end Coefficient

end TensorEquations
