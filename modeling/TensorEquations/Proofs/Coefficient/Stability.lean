import TensorEquations.Proofs.Coefficient.Basic
import TensorEquations.Substitution.Basic

/-!
# What every operation on a coefficient keeps

* `Coefficient.Stable`, `Coefficient.Invariant` — a property that a coefficient keeps when it is locked or
  unlocked, takes a revision of some kind or gets a new tensor from one; and one that it has from the start and that
  observing and completing keep as well.
* `Coefficient.IsFrame` — a part of a coefficient that neither its tensor nor its queue belongs to.
* `Coefficient.invariant_isConsistent` — a free coefficient has no queue, a finished one has a tensor.
* `Coefficient.IsRegular`, `Coefficient.invariant_isRegular` — **nothing waits for an open coefficient, and it has no
  tensor.**
* `Coefficient.IsLabelled`, `Coefficient.invariant_isLabelled` — **a coefficient keeps its own labels as long as the
  revisions handed to it keep the labels of a tensor**; substitutions are such revisions.
-/

namespace TensorEquations

namespace Coefficient

variable {P : Coefficient → Prop} {R : CoefficientKey → Revision → Prop} {c c' : Coefficient} {f : Revision} {b : Bool}

/-! ## Stable properties -/

/-- A property of coefficients that the steps of a solve keep, as long as the revisions of each of them are of some
kind; all substitutions are. -/
structure Stable (P : Coefficient → Prop) (R : CoefficientKey → Revision → Prop) : Prop where
  lock : ∀ {c : Coefficient}, P c → P c.lock
  unlock : ∀ {c : Coefficient}, P c → P c.unlock.1
  queue : ∀ {c : Coefficient} {f : Revision}, P c → R c.key f → c.isFinished = true → c.isLocked = true →
    P { c with queue := c.queue ++ [f] }
  store : ∀ {c : Coefficient} {f : Revision} {t t' : Tensor}, P c → R c.key f → c.tensor = some t → f t = .ok t' →
    P { c with tensor := some t' }
  substitution : ∀ (k : CoefficientKey) (s : Substitution), R k s.update

/-- A property of coefficients that they have from the start and that every operation keeps. -/
structure Invariant (P : Coefficient → Prop) (R : CoefficientKey → Revision → Prop) : Prop extends Stable P R where
  fresh : ∀ k : CoefficientKey, P { key := k }
  observe : ∀ {c : Coefficient} (o : Observer), P c → P (c.observe o)
  complete : ∀ {c c' : Coefficient} {t : Tensor}, P c → c.complete t = .ok c' → P c'

theorem Stable.applyOrDefer (h : Stable P R) (hc : P c) (hf : R c.key f) (happly : c.applyOrDefer f = .ok (c', b)) :
    P c' := by
  rcases applyOrDefer_ok happly with ⟨t, t', -, -, ht, hu, rfl⟩ | ⟨hfinished, hl, rfl⟩ | ⟨-, rfl⟩
  · exact h.store hc hf ht hu
  · exact h.queue hc hf hfinished hl
  · exact hc

/-- A part of a coefficient to which neither its tensor nor its queue belongs. -/
structure IsFrame {α : Type} (p : Coefficient → α) : Prop where
  tensor : ∀ (c : Coefficient) (t : Tensor), p { c with tensor := some t } = p c
  queue : ∀ (c : Coefficient) (fs : List Revision), p { c with queue := fs } = p c

theorem IsFrame.applyOrDefer {α : Type} {p : Coefficient → α} (h : IsFrame p)
    (happly : c.applyOrDefer f = .ok (c', b)) : p c' = p c := by
  rcases applyOrDefer_ok happly with ⟨t, t', -, -, -, -, rfl⟩ | ⟨-, -, rfl⟩ | ⟨-, rfl⟩
  · exact h.tensor c t'
  · exact h.queue c _
  · rfl

/-! ## Consistent coefficients -/

theorem invariant_isConsistent : Invariant IsConsistent fun _ _ => True where
  lock hc := hc.lock
  unlock hc := hc.unlock
  queue hc _ _ hl := ⟨fun hfree => absurd (hl.symm.trans hfree) (nomatch ·), hc.tensor⟩
  store hc _ _ _ := ⟨hc.queue, fun _ => ⟨_, rfl⟩⟩
  substitution _ _ := trivial
  fresh _ := ⟨fun _ => rfl, fun hf => (nomatch hf)⟩
  observe _ hc := ⟨hc.queue, hc.tensor⟩
  complete hc hcomplete := hc.complete hcomplete

/-! ## Regular coefficients -/

/-- A consistent coefficient for which nothing waits as long as it is open, and which has no tensor until then. -/
structure IsRegular (c : Coefficient) : Prop extends IsConsistent c where
  waiting : c.queue ≠ [] → c.isFinished = true
  unfinished : c.isFinished = false → c.tensor = none

namespace IsRegular

theorem finished_of_tensor (h : c.IsRegular) {t : Tensor} (ht : c.tensor = some t) : c.isFinished = true := by
  cases hf : c.isFinished with
  | true => rfl
  | false => exact nomatch (h.unfinished hf).symm.trans ht

theorem unlock (h : c.IsRegular) : c.unlock.1.IsRegular := by
  refine ⟨h.toIsConsistent.unlock, ?_, ?_⟩ <;> unfold Coefficient.unlock release
  · split
    · split <;> exact fun hq => absurd rfl hq
    · exact h.waiting
  · split
    · split
      · rename_i hnone
        exact fun _ => hnone
      · rename_i t ht
        exact fun hf => absurd ((h.finished_of_tensor ht).symm.trans hf) (nomatch ·)
    · exact h.unfinished

end IsRegular

/-- **Nothing waits for an open coefficient, and it has no tensor.** -/
theorem invariant_isRegular : Invariant IsRegular fun _ _ => True where
  lock hc := ⟨hc.toIsConsistent.lock, hc.waiting, hc.unfinished⟩
  unlock hc := hc.unlock
  queue hc hf hfinished hl :=
    ⟨invariant_isConsistent.queue hc.toIsConsistent hf hfinished hl, fun _ => hfinished, hc.unfinished⟩
  store hc hf ht hu := ⟨invariant_isConsistent.store hc.toIsConsistent hf ht hu, hc.waiting,
    fun hno => absurd ((hc.finished_of_tensor ht).symm.trans hno) (nomatch ·)⟩
  substitution _ _ := trivial
  fresh k := ⟨invariant_isConsistent.fresh k, fun hq => absurd rfl hq, fun _ => rfl⟩
  observe o hc := ⟨invariant_isConsistent.observe o hc.toIsConsistent, hc.waiting, hc.unfinished⟩
  complete hc hcomplete := by
    have hconsistent := hc.toIsConsistent.complete hcomplete
    obtain ⟨-, -, t', -, rfl⟩ := complete_ok hcomplete
    exact ⟨hconsistent, fun _ => rfl, fun hno => (nomatch hno)⟩

end Coefficient

/-! ## Labels -/

/-- A revision that leaves every tensor its labels. -/
def Revision.KeepsLabels (f : Revision) : Prop := ∀ t t', f t = .ok t' → t'.labels = t.labels

/-- A substitution changes nothing but components. -/
theorem Substitution.update_keepsLabels (s : Substitution) : Revision.KeepsLabels s.update := by
  intro t t' h
  obtain ⟨q, hq, h⟩ := bind_eq_ok h
  cases h
  unfold apply at hq
  split at hq
  · cases hq
  · cases hq
    rfl

theorem Tensor.withLabels_labels {t t' : Tensor} {labels : List String} (h : t.withLabels labels = .ok t') :
    t'.labels = labels := by
  unfold withLabels relabel at h
  split at h
  · split at h
    · cases h
      rfl
    · cases h
  · cases h

theorem runQueue_labels : ∀ {fs : List Revision} {t : Tensor}, (∀ f ∈ fs, f.KeepsLabels) →
    (runQueue t fs).1.labels = t.labels
  | [], _, _ => rfl
  | f :: fs, t, h => by
    have hrest : ∀ g ∈ fs, g.KeepsLabels := fun g hg => h g (List.mem_cons_of_mem _ hg)
    rw [runQueue]
    cases hf : f t with
    | ok t' => exact (runQueue_labels hrest).trans (h f List.mem_cons_self t t' hf)
    | error reason => exact runQueue_labels hrest

namespace Coefficient

variable {c : Coefficient}

/-- A coefficient whose tensor has the labels of the coefficient, and in whose queue nothing changes that. -/
structure IsLabelled (c : Coefficient) : Prop where
  tensor : ∀ t, c.tensor = some t → t.labels = c.labels
  queue : ∀ f ∈ c.queue, f.KeepsLabels

theorem IsLabelled.unlock (h : c.IsLabelled) : c.unlock.1.IsLabelled := by
  unfold Coefficient.unlock release
  split
  · split
    · rename_i hnone
      exact ⟨h.tensor, fun _ hf => absurd hf List.not_mem_nil⟩
    · rename_i t ht
      refine ⟨fun u hu => ?_, fun _ hf => absurd hf List.not_mem_nil⟩
      obtain rfl := Option.some.inj hu
      exact (runQueue_labels h.queue).trans (h.tensor t ht)
  · exact h

/-- **A coefficient keeps its own labels.** -/
theorem invariant_isLabelled (k : CoefficientKey) :
    Invariant (fun c => c.key = k → c.IsLabelled) fun m f => m = k → f.KeepsLabels where
  lock hc hk := ⟨(hc hk).tensor, (hc hk).queue⟩
  unlock hc hk := (hc (hk ▸ (unlock_key _).symm)).unlock
  queue hc hf _ _ hk := ⟨(hc hk).tensor, fun g hg => (List.mem_append.mp hg).elim ((hc hk).queue g) fun hg =>
    List.mem_singleton.mp hg ▸ hf hk⟩
  store hc hf ht hu hk :=
    ⟨fun u hu' => Option.some.inj hu' ▸ (hf hk _ _ hu).trans ((hc hk).tensor _ ht), (hc hk).queue⟩
  substitution _ s _ := s.update_keepsLabels
  fresh _ _ := ⟨fun _ ht => (nomatch ht), fun _ hf => absurd hf List.not_mem_nil⟩
  observe _ hc hk := ⟨(hc hk).tensor, (hc hk).queue⟩
  complete hc hcomplete hk := by
    obtain ⟨-, -, t', ht', rfl⟩ := complete_ok hcomplete
    exact ⟨fun u hu => Option.some.inj hu ▸ Tensor.withLabels_labels ht', (hc hk).queue⟩

end Coefficient

end TensorEquations
