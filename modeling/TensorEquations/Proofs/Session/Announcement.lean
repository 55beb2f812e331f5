import TensorEquations.Proofs.Equation.Call
import TensorEquations.Proofs.Session.Holding
import TensorEquations.Proofs.Session.Lifecycle
import TensorEquations.Proofs.Tensor.Lookup

/-!
# Announcements

A coefficient that is completed gets its tensor, and then its observers are told so, each of them once.

* `Session.tell`, `Session.Reaches` — one observer told; an observer that does not fail when it is told.
* `Session.announce_eq_foldl` — **observers none of which fails are told one after the other.**
* `Session.heard` — what the listeners of a coefficient have been told.
* `Coefficient.complete_finish` — an open coefficient takes every tensor of its rank.
* `Session.complete_first`, `Session.complete_rank`, `Session.complete_again` — the ways in which a completion ends.
* `Session.Finished` — what the first completion leaves.
-/

namespace TensorEquations

/-! ## Observers -/

/-- The name of a listener. -/
def Observer.tag? : Observer → Option String
  | .listener tag => some tag
  | .equation _ => none

namespace Session

/-- One observer told that a coefficient is finished. -/
def tell (k : CoefficientKey) (s : Session) : Observer → Session
  | .listener tag => { s with events := s.events ++ [.coefficientFinished tag k] }
  | .equation place => (s.notify place).1

/-- An observer does not fail when it is told: a listener, or an equation whose submission is not refused. -/
def Reaches (s : Session) : Observer → Prop
  | .listener _ => True
  | .equation place => (s.notify place).2 = none

/-- What the listeners of a coefficient have been told so far. -/
def heard (s : Session) (k : CoefficientKey) : List String :=
  s.events.filterMap fun
    | .coefficientFinished tag j => if j = k then some tag else none
    | .equationFinished _ _ _ => none

variable {s s' : Session} {j k : CoefficientKey} {o o' : Observer}

/-- An equation is refused in a closed session only, if it would be submitted. -/
theorem notify_eq_none_iff (s : Session) (place : Nat) : (s.notify place).2 = none ↔
    (s.isClosed = true → ∀ e, s.equations[place]? = some e →
      e.isEmpty || e.isScheduled || !e.isReady s.registry) := by
  unfold notify
  split
  · rename_i hnone
    exact ⟨fun _ _ e he => (nomatch hnone.symm.trans he), fun _ => rfl⟩
  · rename_i e he
    have hclosed : (s.modifyEquation place fun e => { e with isScheduled := true }).isClosed = s.isClosed := rfl
    split
    · rename_i hquiet
      exact ⟨fun _ _ d hd => Option.some.inj (he.symm.trans hd) ▸ hquiet, fun _ => rfl⟩
    · rename_i hready
      dsimp only
      rw [hclosed]
      split
      · rename_i hclosed
        exact ⟨nofun, fun h => absurd (h hclosed e he) hready⟩
      · rename_i hopen
        exact ⟨fun _ h => absurd h hopen, fun _ => rfl⟩

/-- In an open session no observer fails. -/
theorem reaches_of_open (hopen : s.isClosed = false) (o : Observer) : s.Reaches o := by
  cases o with
  | listener tag => trivial
  | equation place => exact (notify_scheduled hopen place).1

/-- In a closed session an equation that is not refused is not submitted. -/
theorem notify_closed {place : Nat} (hclosed : s.isClosed = true) (hnone : (s.notify place).2 = none) :
    (s.notify place).1 = s := by
  have hquiet := (notify_eq_none_iff s place).mp hnone hclosed
  unfold notify
  split
  · rfl
  · rename_i e he
    rw [if_pos (hquiet e he)]

/-- Observers that do not fail make no other one fail. -/
theorem Reaches.tell (ho : s.Reaches o) (ho' : s.Reaches o') : (s.tell k o).Reaches o' := by
  cases o with
  | listener tag =>
    cases o' with
    | listener tag' => trivial
    | equation place => exact (notify_eq_none_iff _ _).mpr ((notify_eq_none_iff s place).mp ho')
  | equation place =>
    cases hclosed : s.isClosed with
    | false => exact reaches_of_open ((notify_submits s place).isClosed.trans hclosed) o'
    | true =>
      have hsame : s.tell k (.equation place) = s := notify_closed hclosed ho
      rwa [hsame]

/-- **Observers none of which fails are told one after the other.** -/
theorem announce_eq_foldl : ∀ {os : List Observer} {s : Session}, (∀ o ∈ os, s.Reaches o) →
    s.announce k os = (os.foldl (tell k) s, none)
  | [], _, _ => rfl
  | o :: os, s, h => by
    obtain ⟨ho, hos⟩ := List.forall_mem_cons.mp h
    have hlater := announce_eq_foldl (s := s.tell k o) fun o' ho' => ho.tell (hos o' ho')
    rw [List.foldl_cons, ← hlater]
    cases o with
    | listener tag => rfl
    | equation place =>
      have hnone : (s.notify place).2 = none := ho
      rw [announce]
      split
      · rename_i heq
        rw [tell, heq]
      · rename_i heq
        rw [heq] at hnone
        cases hnone

theorem heard_congr (h : s'.events = s.events) (k : CoefficientKey) : s'.heard k = s.heard k := by
  unfold heard
  rw [h]

theorem heard_tell (k : CoefficientKey) (s : Session) (o : Observer) :
    (s.tell k o).heard j = s.heard j ++ if k = j then o.tag?.toList else [] := by
  cases o with
  | listener tag =>
    unfold heard tell
    rw [List.filterMap_append]
    by_cases hk : k = j <;> simp [hk, Observer.tag?]
  | equation place =>
    rw [tell, heard_congr (notify_events s place), Observer.tag?, Option.toList_none, ite_self, List.append_nil]

/-- Each listener hears of the coefficient once, in the order of the list. -/
theorem heard_foldl : ∀ (os : List Observer) (s : Session),
    (os.foldl (tell k) s).heard k = s.heard k ++ os.filterMap Observer.tag?
  | [], s => (List.append_nil _).symm
  | o :: os, s => by
    rw [List.foldl_cons, heard_foldl os, heard_tell, if_pos rfl, List.append_assoc]
    cases o <;> rfl

/-- No listener of another coefficient is told. -/
theorem announce_heard (hjk : k ≠ j) : ∀ (os : List Observer) (s : Session),
    (s.announce k os).1.heard j = s.heard j
  | [], _ => rfl
  | o :: os, s => by
    have htell : (s.tell k o).heard j = s.heard j := by rw [heard_tell, if_neg hjk, List.append_nil]
    cases o with
    | listener tag => exact (announce_heard hjk os _).trans htell
    | equation place =>
      rw [announce]
      rw [tell] at htell
      split
      · rename_i heq
        rw [heq] at htell
        exact (announce_heard hjk os _).trans htell
      · rename_i heq
        rwa [heq] at htell

end Session

/-! ## The ways in which a completion ends -/

namespace Coefficient

/-- A coefficient with its final tensor. -/
def finish (c : Coefficient) (y : Tensor) : Coefficient := { c with tensor := some y, isFinished := true }

variable {c : Coefficient} {x : Tensor}

/-- The labels of a coefficient are as many as its rank says. -/
theorem length_labels (hrank : (x.rank : Int) = c.key.rank) : c.labels.length = x.labels.length := by
  rw [labels, CoefficientKey.labels, length_labelSeries, ← hrank, Int.toNat_natCast, Tensor.rank]

/-- **An open coefficient gets a tensor of its rank under its own labels.** The labels are pairwise different, so the
tensor is never refused. -/
theorem complete_finish (hopen : c.isFinished = false) (hrank : (x.rank : Int) = c.key.rank) :
    ∃ y, c.complete x = .ok (c.finish y) ∧ y.labels = c.labels ∧ y.SameComponents x := by
  obtain ⟨y, hy, hlabels, hsame⟩ := Tensor.relabel_ok (length_labels hrank) (nodup_labelSeries _)
  refine ⟨y, ?_, hlabels, hsame⟩
  have hwith : x.withLabels c.labels = .ok y := (dif_pos (length_labels hrank)).trans hy
  rw [complete, if_neg (not_not.mpr hrank), hopen, if_neg Bool.false_ne_true, hwith]
  rfl

end Coefficient

namespace Session

variable {s : Session} {k : CoefficientKey} {c : Coefficient} {x : Tensor}

/-- The first tensor of the right rank is stored, and then the observers are told. -/
theorem complete_first (hc : s.registry.find? k = some c) (hfree : c.isLocked = false) (hopen : c.isFinished = false)
    (hrank : (x.rank : Int) = k.rank) : ∃ y, y.labels = k.labels ∧ y.SameComponents x ∧
      s.complete k x = (s.putCoefficient (c.finish y)).announce k c.observers := by
  obtain rfl := Registry.key_of_find? hc
  obtain ⟨y, hy, hlabels, hsame⟩ := Coefficient.complete_finish hopen hrank
  refine ⟨y, hlabels, hsame, ?_⟩
  rw [complete, hc]
  dsimp only
  rw [hfree, Bool.false_and, if_neg Bool.false_ne_true, hy]
  rfl

/-- A tensor of another rank is refused and changes nothing. -/
theorem complete_rank (hc : s.registry.find? k = some c) (hrank : (x.rank : Int) ≠ k.rank) :
    s.complete k x = (s, some (.coefficient (.shape (.coefficientRank k.name k.rank x.rank)))) := by
  obtain rfl := Registry.key_of_find? hc
  rw [complete, hc]
  dsimp only
  rw [beq_eq_false_iff_ne.mpr hrank, Bool.and_false, if_neg Bool.false_ne_true, Coefficient.complete, if_pos hrank]
  rfl

/-- A finished coefficient is not completed again. -/
theorem complete_again (hc : s.registry.find? k = some c) (hfree : c.isLocked = false)
    (hfinished : c.isFinished = true) (hrank : (x.rank : Int) = k.rank) :
    s.complete k x = (s, some (.coefficient (.alreadyFinished k.name))) := by
  obtain rfl := Registry.key_of_find? hc
  rw [complete, hc]
  dsimp only
  rw [hfree, Bool.false_and, if_neg Bool.false_ne_true, Coefficient.complete, if_neg (not_not.mpr hrank),
    if_pos hfinished]
  rfl

/-- What the first completion of a coefficient leaves: the coefficient has its tensor and is finished, and nothing else
of it has changed, nor has another coefficient. Observers none of which fails have been told one after the other, each
listener once. -/
structure Finished (s : Session) (k : CoefficientKey) (c : Coefficient) (y : Tensor)
    (result : Session × Option SessionError) : Prop where
  coefficient : result.1.registry.find? k = some (c.finish y)
  others : ∀ j, j ≠ k → result.1.registry.find? j = s.registry.find? j ∧ result.1.heard j = s.heard j
  told : (∀ o ∈ c.observers, (s.putCoefficient (c.finish y)).Reaches o) →
    result = (c.observers.foldl (tell k) (s.putCoefficient (c.finish y)), none) ∧
      result.1.heard k = s.heard k ++ c.observers.filterMap Observer.tag?

theorem finished_announce (hc : s.registry.find? k = some c) (y : Tensor) :
    s.Finished k c y ((s.putCoefficient (c.finish y)).announce k c.observers) := by
  have hregistry := (announce_submits c.observers (s.putCoefficient (c.finish y)) k).registry
  have hfind : ∀ j, (s.putCoefficient (c.finish y)).registry.find? j =
      if j = k then some (c.finish y) else s.registry.find? j := fun j => Registry.find?_put_of_find? hc rfl
  refine ⟨?_, fun j hj => ⟨?_, ?_⟩, fun hreaches => ?_⟩
  · rw [hregistry, hfind, if_pos rfl]
  · rw [hregistry, hfind, if_neg hj]
  · exact announce_heard (Ne.symm hj) c.observers _
  · rw [announce_eq_foldl hreaches]
    exact ⟨rfl, heard_foldl c.observers _⟩

end Session

end TensorEquations
