import TensorEquations.Coefficient.Basic
import TensorEquations.Proofs.Agreement

/-!
# Coefficients and their queues

* `runQueue_append` — a queue is run in the order of arrival.
* `Coefficient.IsConsistent` — a free coefficient has no queue, and a finished one has a tensor; every
  operation on coefficients keeps this.
* `Coefficient.applyOrDefer_ok`, `Coefficient.applyOrDefer_error` — the three ways in which a coefficient
  takes a revision, and when it refuses one.
* `Coefficient.complete_ok` — what completing a coefficient does.
-/

namespace TensorEquations

theorem runQueue_append : ∀ (t : Tensor) (fs gs : List Revision), runQueue t (fs ++ gs) =
    ((runQueue (runQueue t fs).1 gs).1, (runQueue t fs).2.or (runQueue (runQueue t fs).1 gs).2)
  | _, [], _ => rfl
  | t, f :: fs, gs => by
    rw [List.cons_append, runQueue, runQueue]
    cases f t with
    | ok t' => exact runQueue_append t' fs gs
    | error reason =>
        simp only
        rw [runQueue_append t fs gs]
        rfl

/-- The labels that a tensor has already. -/
theorem Tensor.withLabels_self (t : Tensor) : t.withLabels t.labels = .ok t := by
  unfold withLabels relabel
  rw [dif_pos rfl, dif_pos t.nodup_labels]

namespace Coefficient

/-- A free coefficient has no queue, and a finished one has a tensor. -/
structure IsConsistent (c : Coefficient) : Prop where
  queue : c.isLocked = false → c.queue = []
  tensor : c.isFinished = true → ∃ t, c.tensor = some t

variable {c c' : Coefficient} {f : Revision}

/-- A coefficient takes a revision in one of three ways: a free one is revised, a held one queues it, and
an open one leaves it. -/
theorem applyOrDefer_ok {b : Bool} (h : c.applyOrDefer f = .ok (c', b)) :
    (∃ t t', c.isFinished = true ∧ c.isLocked = false ∧ c.tensor = some t ∧ f t = .ok t' ∧
      c' = { c with tensor := some t' }) ∨
    (c.isFinished = true ∧ c.isLocked = true ∧ c' = { c with queue := c.queue ++ [f] }) ∨
    ((c.isFinished = false ∨ c.tensor = none) ∧ c' = c) := by
  unfold applyOrDefer at h
  split at h
  · rename_i t hf ht
    split at h
    · rename_i hl
      cases h
      exact .inr (.inl ⟨hf, hl, rfl⟩)
    · rename_i hl
      obtain ⟨t', ht', h⟩ := bind_eq_ok h
      cases h
      exact .inl ⟨t, t', hf, Bool.eq_false_iff.mpr hl, ht, ht', rfl⟩
  · rename_i hno
    cases h
    refine .inr (.inr ⟨?_, rfl⟩)
    cases hf : c.isFinished with
    | false => exact .inl rfl
    | true =>
        cases ht : c.tensor with
        | none => exact .inr rfl
        | some t => exact absurd ht (hno t hf)

theorem applyOrDefer_key {b : Bool} (h : c.applyOrDefer f = .ok (c', b)) : c'.key = c.key := by
  rcases applyOrDefer_ok h with ⟨t, t', -, -, -, -, rfl⟩ | ⟨-, -, rfl⟩ | ⟨-, rfl⟩ <;> rfl

theorem applyOrDefer_frame {b : Bool} (h : c.applyOrDefer f = .ok (c', b)) :
    c'.isLocked = c.isLocked ∧ c'.isFinished = c.isFinished := by
  rcases applyOrDefer_ok h with ⟨t, t', -, -, -, -, rfl⟩ | ⟨-, -, rfl⟩ | ⟨-, rfl⟩ <;> exact ⟨rfl, rfl⟩

/-- Only a free coefficient refuses a revision. -/
theorem applyOrDefer_error {reason : String} (h : c.applyOrDefer f = .error reason) :
    ∃ t, c.isFinished = true ∧ c.isLocked = false ∧ c.tensor = some t ∧ f t = .error reason := by
  unfold applyOrDefer at h
  split at h
  · rename_i t hf ht
    split at h
    · cases h
    · rename_i hl
      refine ⟨t, hf, Bool.eq_false_iff.mpr hl, ht, ?_⟩
      cases hft : f t with
      | ok t' =>
          rw [hft] at h
          cases h
      | error reason' =>
          rw [hft] at h
          cases h
          rfl
  · cases h

/-- Only an open coefficient is completed, with a tensor of the right rank under its own labels. -/
theorem complete_ok {t : Tensor} (h : c.complete t = .ok c') : (t.rank : Int) = c.key.rank ∧
    c.isFinished = false ∧ ∃ t', t.withLabels c.labels = .ok t' ∧
      c' = { c with tensor := some t', isFinished := true } := by
  unfold complete at h
  split at h
  · cases h
  · rename_i hrank
    split at h
    · cases h
    · rename_i hf
      obtain ⟨t', ht', h⟩ := bind_eq_ok h
      cases h
      exact ⟨not_not.mp hrank, Bool.eq_false_iff.mpr hf, t', mapError_eq_ok ht', rfl⟩

theorem complete_frame {t : Tensor} (h : c.complete t = .ok c') : c'.key = c.key ∧ c.isFinished = false ∧
    c'.isFinished = true ∧ c'.isLocked = c.isLocked ∧ c'.observers = c.observers := by
  obtain ⟨-, hf, t', -, rfl⟩ := complete_ok h
  exact ⟨rfl, hf, rfl, rfl, rfl⟩

/-- A tensor that has the labels of the coefficient is stored as it is. -/
theorem complete_tensor {t : Tensor} (h : c.complete t = .ok c') (hlabels : t.labels = c.labels) :
    c'.tensor = some t := by
  obtain ⟨-, -, t', ht', rfl⟩ := complete_ok h
  rw [← hlabels, t.withLabels_self] at ht'
  exact congrArg some (Except.ok.inj ht').symm

theorem unlock_key (c : Coefficient) : c.unlock.1.key = c.key := by
  unfold unlock release
  split
  · split <;> rfl
  · rfl

namespace IsConsistent

theorem lock (h : c.IsConsistent) : c.lock.IsConsistent := ⟨fun hl => (nomatch hl), h.tensor⟩

theorem applyOrDefer (h : c.IsConsistent) {b : Bool} (hc : c.applyOrDefer f = .ok (c', b)) :
    c'.IsConsistent := by
  rcases applyOrDefer_ok hc with ⟨t, t', -, hl, -, -, rfl⟩ | ⟨-, hl, rfl⟩ | ⟨-, rfl⟩
  · exact ⟨h.queue, fun _ => ⟨t', rfl⟩⟩
  · exact ⟨fun hl' => absurd (hl.symm.trans hl') (nomatch ·), h.tensor⟩
  · exact h

theorem release (h : c.IsConsistent) : c.release.1.IsConsistent := by
  unfold Coefficient.release
  split
  · rename_i ht
    refine ⟨fun _ => rfl, fun hf => ?_⟩
    obtain ⟨t, ht'⟩ := h.tensor hf
    rw [ht'] at ht
    cases ht
  · exact ⟨fun _ => rfl, fun _ => ⟨_, rfl⟩⟩

theorem unlock (h : c.IsConsistent) : c.unlock.1.IsConsistent := by
  unfold Coefficient.unlock
  split
  · exact h.release
  · exact h

theorem setTensor (h : c.IsConsistent) {t : Tensor} (hc : c.setTensor t = .ok c') : c'.IsConsistent := by
  unfold Coefficient.setTensor at hc
  split at hc
  · cases hc
    exact ⟨h.queue, fun _ => ⟨t, rfl⟩⟩
  · cases hc

theorem complete (h : c.IsConsistent) {t : Tensor} (hc : c.complete t = .ok c') : c'.IsConsistent := by
  obtain ⟨-, -, t', -, rfl⟩ := complete_ok hc
  exact ⟨h.queue, fun _ => ⟨t', rfl⟩⟩

end IsConsistent

end Coefficient

end TensorEquations
