import Mathlib.Data.List.Induction
import TensorEquations.Proofs.Coefficient.Basic

/-!
# Held coefficients

What becomes of a coefficient under any sequence of requests of one caller, whatever partial functions the
revisions are.

* `passAll`, `Succeed`, `FailsFirst` — revisions one after the other, the failing ones passed over, and which of
  them fails first; `runQueue_fst`, `runQueue_none`, `runQueue_some` tell this of a queue.
* `Coefficient.Request`, `Coefficient.askAll` — what a caller asks of a coefficient, and a sequence of that.
* `Coefficient.exists_spell` — **a held coefficient has in its queue what was accepted since its lock was taken,
  once and in that order.**
* `Coefficient.unlock_of_held` — **the release passes the stored tensor through the queue.**
* `Coefficient.askAll_revise`, `Coefficient.askAll_held` — **without a replacement in between it makes no
  difference whether revisions reach a free coefficient or a held one that is released after them.**
-/

namespace TensorEquations

/-! ## Revisions one after the other -/

/-- The value of a revision; one that fails leaves the tensor as it is. -/
def Revision.pass (f : Revision) (t : Tensor) : Tensor :=
  match f t with
  | .ok t' => t'
  | .error _ => t

/-- Revisions one after the other, the failing ones passed over. -/
def passAll (fs : List Revision) (t : Tensor) : Tensor := fs.foldl (fun t f => f.pass t) t

/-- Every revision has a value when its turn comes. -/
def Succeed (fs : List Revision) (t : Tensor) : Prop :=
  ∀ before f after, fs = before ++ f :: after → ∃ t', f (passAll before t) = .ok t'

/-- Some revision fails, and the first one that does fails for this reason. -/
def FailsFirst (fs : List Revision) (t : Tensor) (reason : String) : Prop :=
  ∃ before f after, fs = before ++ f :: after ∧ Succeed before t ∧ f (passAll before t) = .error reason

variable {f : Revision} {fs : List Revision} {t t' : Tensor} {reason : String}

theorem Revision.pass_ok (h : f t = .ok t') : f.pass t = t' := by
  unfold pass
  rw [h]

theorem Revision.pass_error (h : f t = .error reason) : f.pass t = t := by
  unfold pass
  rw [h]

theorem passAll_cons (f : Revision) (fs : List Revision) (t : Tensor) :
    passAll (f :: fs) t = passAll fs (f.pass t) := rfl

theorem passAll_append (fs gs : List Revision) (t : Tensor) :
    passAll (fs ++ gs) t = passAll gs (passAll fs t) := List.foldl_append

theorem succeed_nil (t : Tensor) : Succeed [] t := fun before f after h => by simp at h

theorem succeed_cons : Succeed (f :: fs) t ↔ (∃ t', f t = .ok t') ∧ Succeed fs (f.pass t) := by
  constructor
  · intro h
    exact ⟨h [] f fs rfl, fun before g after heq => h (f :: before) g after (congrArg (f :: ·) heq)⟩
  · rintro ⟨hf, hfs⟩ before g after heq
    cases before with
    | nil =>
        obtain ⟨rfl, -⟩ := List.cons.inj heq
        exact hf
    | cons f' before =>
        obtain ⟨rfl, hrest⟩ := List.cons.inj heq
        exact hfs before g after hrest

theorem failsFirst_of_error (h : f t = .error reason) (fs : List Revision) : FailsFirst (f :: fs) t reason :=
  ⟨[], f, fs, rfl, succeed_nil t, h⟩

theorem FailsFirst.cons (hf : f t = .ok t') (h : FailsFirst fs (f.pass t) reason) :
    FailsFirst (f :: fs) t reason := by
  obtain ⟨before, g, after, heq, hbefore, hg⟩ := h
  exact ⟨f :: before, g, after, congrArg (f :: ·) heq, succeed_cons.mpr ⟨⟨t', hf⟩, hbefore⟩, hg⟩

theorem runQueue_fst : ∀ (fs : List Revision) (t : Tensor), (runQueue t fs).1 = passAll fs t
  | [], _ => rfl
  | f :: fs, t => by
    rw [runQueue, passAll_cons]
    cases h : f t with
    | ok t' =>
        rw [Revision.pass_ok h]
        exact runQueue_fst fs t'
    | error reason =>
        rw [Revision.pass_error h]
        exact runQueue_fst fs t

/-- A queue runs without a failure if every revision has a value. -/
theorem runQueue_none : ∀ {fs : List Revision} {t : Tensor}, (runQueue t fs).2 = none → Succeed fs t
  | [], t, _ => succeed_nil t
  | f :: fs, t, h => by
    rw [runQueue] at h
    cases hf : f t with
    | ok t' =>
        rw [hf] at h
        exact succeed_cons.mpr ⟨⟨t', hf⟩, Revision.pass_ok hf ▸ runQueue_none h⟩
    | error reason =>
        rw [hf] at h
        cases h

/-- The failure of a queue is the first one. -/
theorem runQueue_some : ∀ {fs : List Revision} {t : Tensor}, (runQueue t fs).2 = some reason →
    FailsFirst fs t reason
  | [], _, h => by cases h
  | f :: fs, t, h => by
    rw [runQueue] at h
    cases hf : f t with
    | ok t' =>
        rw [hf] at h
        have hrest := runQueue_some h
        rw [← Revision.pass_ok hf] at hrest
        exact hrest.cons hf
    | error reason' =>
        rw [hf] at h
        obtain rfl := Option.some.inj h
        exact failsFirst_of_error hf fs

/-! ## Requests -/

namespace Coefficient

/-- What a caller asks of a coefficient. -/
inductive Request where
  | lock
  | revise (f : Revision)
  | replace (t : Tensor)
  | unlock

namespace Request

def revision? : Request → Option Revision
  | revise f => some f
  | _ => none

def tensor? : Request → Option Tensor
  | replace t => some t
  | _ => none

end Request

/-- The coefficient after a request; one that is refused changes nothing. -/
def ask (c : Coefficient) : Request → Coefficient
  | .lock => c.lock
  | .revise f =>
    match c.applyOrDefer f with
    | .ok (c', _) => c'
    | .error _ => c
  | .replace t =>
    match c.setTensor t with
    | .ok c' => c'
    | .error _ => c
  | .unlock => c.unlock.1

/-- Requests one after the other. -/
def askAll (c : Coefficient) (rs : List Request) : Coefficient := rs.foldl ask c

variable {c : Coefficient}

theorem askAll_append (c : Coefficient) (rs rs' : List Request) :
    c.askAll (rs ++ rs') = (c.askAll rs).askAll rs' := List.foldl_append

theorem askAll_concat (c : Coefficient) (rs : List Request) (r : Request) :
    c.askAll (rs ++ [r]) = (c.askAll rs).ask r := c.askAll_append rs [r]

/-! ### What each request does -/

theorem lock_of_held (hl : c.isLocked = true) : c.lock = c := by
  unfold lock
  rw [← hl]

theorem applyOrDefer_held (hf : c.isFinished = true) (hl : c.isLocked = true) (ht : c.tensor = some t)
    (f : Revision) : c.applyOrDefer f = .ok ({ c with queue := c.queue ++ [f] }, true) := by
  unfold applyOrDefer
  rw [hf, ht]
  exact if_pos hl

theorem ask_revise_free (hf : c.isFinished = true) (hl : c.isLocked = false) (ht : c.tensor = some t)
    (f : Revision) : c.ask (.revise f) = { c with tensor := some (f.pass t) } := by
  have happly : c.applyOrDefer f = (f t).bind fun t' => .ok ({ c with tensor := some t' }, true) := by
    unfold applyOrDefer
    rw [hf, ht]
    exact if_neg (Bool.eq_false_iff.mp hl)
  rw [ask, happly]
  cases h : f t with
  | ok t' =>
      rw [Revision.pass_ok h]
      rfl
  | error reason =>
      rw [Revision.pass_error h, ← ht]
      rfl

/-- **The release passes the stored tensor through the queue**, and the first failure is the outcome. -/
theorem unlock_of_held (hl : c.isLocked = true) (ht : c.tensor = some t) : c.unlock =
    ({ c with tensor := some (passAll c.queue t), isLocked := false, queue := [] },
      (runQueue t c.queue).2.map (.deferredFailed c.name)) := by
  unfold unlock release
  rw [if_pos hl, ht]
  simp only [runQueue_fst]

theorem unlock_of_free (hl : c.isLocked = false) : c.unlock = (c, some .notHeld) := by
  unfold unlock
  exact if_neg (Bool.eq_false_iff.mp hl)

/-- Only the lock makes a free coefficient a held one. -/
theorem ask_of_free (hl : c.isLocked = false) {r : Request} (hr : (c.ask r).isLocked = true) : r = .lock := by
  refine Classical.byContradiction fun hne => ?_
  have hfree : (c.ask r).isLocked = false := by
    cases r with
    | lock => exact absurd rfl hne
    | revise f =>
        rw [ask]
        split
        · rename_i heq
          exact (applyOrDefer_frame heq).1.trans hl
        · exact hl
    | replace t =>
        rw [ask, setTensor, if_neg (Bool.eq_false_iff.mp hl)]
        exact hl
    | unlock =>
        rw [ask, unlock_of_free hl]
        exact hl
  exact absurd (hfree.symm.trans hr) (nomatch ·)

/-- A held coefficient stays held until its release: it queues what is to be revised and stores what is to
replace its tensor. -/
theorem ask_of_held (hf : c.isFinished = true) (hl : c.isLocked = true) (ht : c.tensor = some t) {r : Request}
    (hr : r ≠ .unlock) : c.ask r =
      { c with queue := c.queue ++ r.revision?.toList, tensor := some (r.tensor?.getD t) } := by
  cases r with
  | lock =>
      rw [ask, lock_of_held hl]
      show c = { c with queue := c.queue ++ [], tensor := some t }
      rw [List.append_nil, ← ht]
  | revise f =>
      rw [ask, applyOrDefer_held hf hl ht]
      show { c with queue := c.queue ++ [f] } = { c with queue := c.queue ++ [f], tensor := some t }
      rw [← ht]
  | replace t' =>
      rw [ask, setTensor, if_pos hl]
      show { c with tensor := some t' } = { c with queue := c.queue ++ [], tensor := some t' }
      rw [List.append_nil]
  | unlock => exact absurd rfl hr

/-! ### Sequences of requests -/

/-- A finished coefficient that is consistent. -/
structure IsSound (c : Coefficient) : Prop extends c.IsConsistent where
  finished : c.isFinished = true

theorem IsSound.ask (h : c.IsSound) (r : Request) : (c.ask r).key = c.key ∧ (c.ask r).IsSound := by
  cases r with
  | lock => exact ⟨rfl, h.toIsConsistent.lock, h.finished⟩
  | revise f =>
      rw [Coefficient.ask]
      split
      · rename_i c' b heq
        exact ⟨applyOrDefer_key heq, h.toIsConsistent.applyOrDefer heq,
          (applyOrDefer_frame heq).2.trans h.finished⟩
      · exact ⟨rfl, h⟩
  | replace t =>
      rw [Coefficient.ask]
      split
      · rename_i c' heq
        have hconsistent := h.toIsConsistent.setTensor heq
        unfold setTensor at heq
        split at heq
        · cases heq
          exact ⟨rfl, hconsistent, h.finished⟩
        · cases heq
      · exact ⟨rfl, h⟩
  | unlock =>
      refine ⟨c.unlock_key, h.toIsConsistent.unlock, ?_⟩
      obtain ⟨t, ht⟩ := h.tensor h.finished
      cases hl : c.isLocked with
      | true =>
          show c.unlock.1.isFinished = true
          rw [unlock_of_held hl ht]
          exact h.finished
      | false =>
          show c.unlock.1.isFinished = true
          rw [unlock_of_free hl]
          exact h.finished

theorem IsSound.askAll (h : c.IsSound) : ∀ rs : List Request,
    (c.askAll rs).key = c.key ∧ (c.askAll rs).IsSound := by
  intro rs
  induction rs using List.reverseRecOn with
  | nil => exact ⟨rfl, h⟩
  | append_singleton rs r ih =>
      rw [askAll_concat]
      obtain ⟨hkey, hsound⟩ := ih.2.ask r
      exact ⟨hkey.trans ih.1, hsound⟩

/-- A stretch of requests during which a coefficient is held: it begins with the lock, or the coefficient was held
from the start. -/
structure Spell (c : Coefficient) (rs before during : List Request) (t : Tensor) : Prop where
  start : ((c.askAll before).isLocked = false ∧ rs = before ++ .lock :: during) ∨
    (before = [] ∧ c.isLocked = true ∧ rs = during)
  held : .unlock ∉ during
  tensor : (c.askAll before).tensor = some t

/-- One more request of a spell. -/
theorem Spell.concat {rs before during : List Request} (h : c.Spell rs before during t) {r : Request}
    (hr : r ≠ .unlock) : c.Spell (rs ++ [r]) before (during ++ [r]) t where
  start := h.start.imp (fun ⟨hl, heq⟩ => ⟨hl, by rw [heq, List.append_assoc]; rfl⟩)
    fun ⟨hbefore, hl, heq⟩ => ⟨hbefore, hl, by rw [heq]⟩
  held hmem := (List.mem_append.mp hmem).elim h.held fun hmem => hr (List.mem_singleton.mp hmem).symm
  tensor := h.tensor

theorem Spell.queue_concat (during : List Request) (r : Request) :
    (during ++ [r]).filterMap Request.revision? = during.filterMap Request.revision? ++ r.revision?.toList := by
  rw [List.filterMap_append]
  cases r <;> rfl

theorem Spell.tensor_concat (during : List Request) (r : Request) (t : Tensor) :
    ((during ++ [r]).filterMap Request.tensor?).getLastD t =
      r.tensor?.getD ((during.filterMap Request.tensor?).getLastD t) := by
  rw [List.filterMap_append]
  cases r with
  | replace t' => exact List.getLastD_concat
  | _ => exact congrArg (List.getLastD · t) (List.append_nil _)

/-- **A held coefficient has in its queue what was accepted since its lock was taken**, once and in that order,
and it has the tensor that was stored last. -/
theorem IsSound.exists_spell (h : c.IsSound) (rs : List Request) (hl : (c.askAll rs).isLocked = true) :
    ∃ before during t, c.Spell rs before during t ∧
      (c.askAll rs).queue = (c.askAll before).queue ++ during.filterMap Request.revision? ∧
      (c.askAll rs).tensor = some ((during.filterMap Request.tensor?).getLastD t) := by
  induction rs using List.reverseRecOn with
  | nil =>
      obtain ⟨t, ht⟩ := h.tensor h.finished
      exact ⟨[], [], t, ⟨.inr ⟨rfl, hl, rfl⟩, List.not_mem_nil, ht⟩, (List.append_nil _).symm, ht⟩
  | append_singleton rs r ih =>
      have hsound := (h.askAll rs).2
      obtain ⟨u, hu⟩ := hsound.tensor hsound.finished
      rw [askAll_concat] at hl ⊢
      cases hheld : (c.askAll rs).isLocked with
      | false =>
          obtain rfl := ask_of_free hheld hl
          exact ⟨rs, [], u, ⟨.inl ⟨hheld, rfl⟩, List.not_mem_nil, hu⟩, (List.append_nil _).symm, hu⟩
      | true =>
          have hr : r ≠ .unlock := by
            rintro rfl
            rw [Coefficient.ask, unlock_of_held hheld hu] at hl
            cases hl
          obtain ⟨before, during, t, hspell, hqueue, htensor⟩ := ih hheld
          refine ⟨before, during ++ [r], t, hspell.concat hr, ?_⟩
          rw [ask_of_held hsound.finished hheld htensor hr, hqueue, Spell.queue_concat, Spell.tensor_concat]
          exact ⟨List.append_assoc _ _ _, rfl⟩

/-! ### Revisions of a free coefficient and of a held one -/

/-- Revisions of a free coefficient. -/
theorem askAll_revise (hf : c.isFinished = true) (hl : c.isLocked = false) (ht : c.tensor = some t) :
    ∀ fs : List Revision, c.askAll (fs.map .revise) = { c with tensor := some (passAll fs t) } := by
  intro fs
  induction fs using List.reverseRecOn with
  | nil => exact congrArg (fun t => { c with tensor := t }) ht
  | append_singleton fs f ih =>
      rw [List.map_append, List.map_singleton, askAll_concat, ih, passAll_append]
      exact ask_revise_free (c := { c with tensor := some (passAll fs t) }) hf hl rfl f

/-- Revisions of a held coefficient. -/
theorem askAll_queue (hf : c.isFinished = true) (hl : c.isLocked = true) (ht : c.tensor = some t) :
    ∀ fs : List Revision, c.askAll (fs.map .revise) = { c with queue := c.queue ++ fs } := by
  intro fs
  induction fs using List.reverseRecOn with
  | nil => exact congrArg (fun q => { c with queue := q }) (List.append_nil c.queue).symm
  | append_singleton fs f ih =>
      rw [List.map_append, List.map_singleton, askAll_concat, ih, ← List.append_assoc]
      rw [ask, applyOrDefer_held (c := { c with queue := c.queue ++ fs }) hf hl ht]

/-- **Revisions that reach a free coefficient, and the same revisions between its lock and its release.** -/
theorem IsSound.askAll_held (h : c.IsSound) (hl : c.isLocked = false) (fs : List Revision) :
    c.askAll (.lock :: fs.map .revise ++ [.unlock]) = c.askAll (fs.map .revise) := by
  obtain ⟨t, ht⟩ := h.tensor h.finished
  have hqueued : c.askAll (.lock :: fs.map .revise) = { c.lock with queue := c.queue ++ fs } :=
    askAll_queue (c := c.lock) h.finished rfl ht fs
  rw [askAll_concat, hqueued, askAll_revise h.finished hl ht, Coefficient.ask,
    unlock_of_held (c := { c.lock with queue := c.queue ++ fs }) rfl ht, h.queue hl, List.nil_append]
  have hqueue := h.queue hl
  cases c
  cases hl
  cases hqueue
  rfl

end Coefficient

end TensorEquations
