import Mathlib.Data.List.Perm.Basic
import TensorEquations.Equation.Solving
import TensorEquations.Proofs.Coefficient.Basic
import TensorEquations.Proofs.Coefficient.Registry

/-!
# What a solve does to the registry

* `Registry.modifyAll`, `Registry.afterEvaluation` — the coefficients of some keys changed; the registry as
  the evaluation of an equation leaves it.
* `Coefficient.Takes` — how a coefficient takes a substitution: a free one has it carried out, a held one
  queues it, an open one ignores it.
* `Registry.updates_ok`, `Registry.hand_ok`, `Registry.releaseAll_eq` — what each part of a solve does.
* `Registry.solve_eq`, `Registry.solve_ok`, `Registry.solve_error` — **a solve carries its substitution out on
  every coefficient or on none.**
-/

namespace TensorEquations

/-! ## Several coefficients at once -/

/-- The lock given back, the queue left aside. -/
def Coefficient.free (c : Coefficient) : Coefficient := { c with isLocked := false }

theorem Coefficient.free_key (c : Coefficient) : c.free.key = c.key := rfl

theorem Coefficient.lock_key (c : Coefficient) : c.lock.key = c.key := rfl

theorem Coefficient.unlock_of_empty {c : Coefficient} (hl : c.isLocked = true) (hq : c.queue = []) :
    c.unlock = (c.free, none) := by
  unfold unlock release
  rw [if_pos hl, hq]
  cases c with
  | mk key tensor isFinished isLocked queue observers =>
      obtain rfl : queue = [] := hq
      cases tensor <;> rfl

namespace Registry

variable {r r' : Registry} {j k : CoefficientKey} {ks : List CoefficientKey}

/-- The coefficients of some keys changed. -/
def modifyAll (r : Registry) (ks : List CoefficientKey) (f : Coefficient → Coefficient) : Registry :=
  ks.foldl (fun r k => r.modify k f) r

theorem keys_modifyAll (f : Coefficient → Coefficient) : ∀ (ks : List CoefficientKey) (r : Registry),
    (r.modifyAll ks f).keys = r.keys
  | [], _ => rfl
  | k :: ks, r => by
    show ((r.modify k f).modifyAll ks f).keys = _
    rw [keys_modifyAll f ks, keys_modify]

/-- A change that is no change the second time. -/
theorem find?_modifyAll {f : Coefficient → Coefficient} (hf : ∀ c, (f c).key = c.key)
    (hff : ∀ c, f (f c) = f c) : ∀ (ks : List CoefficientKey) (r : Registry),
    (r.modifyAll ks f).find? j = if j ∈ ks then (r.find? j).map f else r.find? j
  | [], _ => rfl
  | k :: ks, r => by
    show ((r.modify k f).modifyAll ks f).find? j = _
    rw [find?_modifyAll hf hff ks, find?_modify hf]
    by_cases hj : j = k
    · have hmem : j ∈ k :: ks := hj ▸ List.mem_cons_self
      rw [if_pos hj, if_pos hmem, Option.map_map]
      split
      · congr 1
        funext c
        exact hff c
      · rfl
    · rw [if_neg hj]
      have hmem : j ∈ k :: ks ↔ j ∈ ks := by simp [hj]
      simp only [hmem]

theorem find?_lockAll : (r.lockAll ks).find? j =
    if j ∈ ks then (r.find? j).map Coefficient.lock else r.find? j :=
  find?_modifyAll Coefficient.lock_key (fun _ => rfl) ks r

theorem keys_lockAll : (r.lockAll ks).keys = r.keys := keys_modifyAll Coefficient.lock ks r

end Registry

/-- How a coefficient takes a substitution. -/
inductive Coefficient.Takes (s : Substitution) : Coefficient → Coefficient → Prop
  | revised {c : Coefficient} {t t' : Tensor} (finished : c.isFinished = true)
      (free : c.isLocked = false) (tensor : c.tensor = some t) (update : s.update t = .ok t') :
      Takes s c { c with tensor := some t' }
  | queued {c : Coefficient} (finished : c.isFinished = true) (held : c.isLocked = true) :
      Takes s c { c with queue := c.queue ++ [s.update] }
  | ignored {c : Coefficient} (unfinished : c.isFinished = false) : Takes s c c

theorem Coefficient.Takes.frame {s : Substitution} {c c' : Coefficient} (h : c.Takes s c') :
    c'.isLocked = c.isLocked ∧ c'.isFinished = c.isFinished ∧ c'.observers = c.observers := by
  cases h <;> exact ⟨rfl, rfl, rfl⟩

/-- The new tensor of a free finished coefficient. -/
theorem Coefficient.Takes.tensor {s : Substitution} {c c' : Coefficient} (h : c.Takes s c')
    (hf : c.isFinished = true) (hl : c.isLocked = false) {t t' : Tensor} (ht : c.tensor = some t)
    (hu : s.update t = .ok t') : c'.tensor = some t' := by
  cases h with
  | @revised t₁ t₂ _ _ ht₁ hu₁ =>
      obtain rfl := Option.some.inj (ht₁.symm.trans ht)
      exact congrArg some (Except.ok.inj (hu₁.symm.trans hu))
  | queued _ hheld => exact absurd (hl.symm.trans hheld) (nomatch ·)
  | ignored hno => exact absurd (hno.symm.trans hf) (nomatch ·)

/-! ## Lookups in registries side by side -/

namespace Registry.Pointwise

variable {r r' : Registry} {s : Substitution}

theorem isFinished (h : Pointwise (Coefficient.Takes s) r r') (k : CoefficientKey) :
    r'.isFinished k = r.isFinished k := by
  cases hc : r.find? k with
  | none =>
      have hnone : r'.find? k = none := find?_eq_none.mpr (h.keys_eq ▸ find?_eq_none.mp hc)
      rw [Registry.isFinished, Registry.isFinished, hc, hnone]
  | some c =>
      obtain ⟨c', hc', htaken⟩ := h.find? hc
      rw [isFinished_of_find? hc, isFinished_of_find? hc']
      exact htaken.frame.2.1

theorem isLocked (h : Pointwise (Coefficient.Takes s) r r') (k : CoefficientKey) :
    r'.isLocked k = r.isLocked k := by
  cases hc : r.find? k with
  | none =>
      have hnone : r'.find? k = none := find?_eq_none.mpr (h.keys_eq ▸ find?_eq_none.mp hc)
      rw [Registry.isLocked, Registry.isLocked, hc, hnone]
  | some c =>
      obtain ⟨c', hc', htaken⟩ := h.find? hc
      rw [isLocked_of_find? hc, isLocked_of_find? hc']
      exact htaken.frame.1

end Registry.Pointwise

namespace Registry

variable {r r' : Registry} {j k : CoefficientKey} {ks : List CoefficientKey} {s : Substitution}

/-- The registry as the evaluation of an equation leaves it. It is the same as before, unless the
evaluation is a given one that hands revisions on by itself. -/
def afterEvaluation (r : Registry) (e : Equation) : Registry :=
  ((r.lockAll e.acquisition).evaluate e).1.modifyAll e.acquisition Coefficient.free

/-! ## New tensors -/

theorem updateStored_ok {t? : Option Tensor} {t' : Tensor} (h : s.updateStored t? = .ok t') :
    ∃ t, t? = some t ∧ s.update t = .ok t' := by
  unfold Substitution.updateStored at h
  split at h
  · rename_i t
    exact ⟨t, rfl, mapError_eq_ok h⟩
  · split at h <;> cases h

theorem updates_ok : ∀ {ks : List CoefficientKey} {ts : List (CoefficientKey × Tensor)},
    r.updates s ks = .ok ts → ts.map Prod.fst = ks ∧
      ∀ p ∈ ts, ∃ t, r.tensor? p.1 = some t ∧ s.update t = .ok p.2
  | [], _, h => by
    cases h
    exact ⟨rfl, fun _ hp => (nomatch hp)⟩
  | k :: ks, ts, h => by
    unfold updates at h
    rw [List.mapM_cons] at h
    obtain ⟨p, hp, h⟩ := bind_eq_ok h
    obtain ⟨t', ht', hp⟩ := bind_eq_ok hp
    obtain ⟨ps, hps, h⟩ := bind_eq_ok h
    cases hp
    cases h
    obtain ⟨hkeys, hupdates⟩ := updates_ok hps
    refine ⟨congrArg (k :: ·) hkeys, fun p hp => ?_⟩
    rcases List.mem_cons.mp hp with rfl | hp
    · exact updateStored_ok ht'
    · exact hupdates p hp

theorem find?_store : ∀ (ts : List (CoefficientKey × Tensor)) {r : Registry},
    (ts.map Prod.fst).Nodup → (∀ j ∉ ts.map Prod.fst, (r.store ts).find? j = r.find? j) ∧
      ∀ p ∈ ts, (r.store ts).find? p.1 = (r.find? p.1).map fun c => { c with tensor := some p.2 }
  | [], _, _ => ⟨fun _ _ => rfl, fun _ hp => (nomatch hp)⟩
  | (k, t) :: ts, r, hn => by
    rw [List.map_cons, List.nodup_cons] at hn
    have hmodify : ∀ j, (r.modify k fun c => { c with tensor := some t }).find? j =
        if j = k then (r.find? j).map (fun c => { c with tensor := some t }) else r.find? j :=
      fun j => find?_modify (f := fun c => { c with tensor := some t }) fun _ => rfl
    obtain ⟨hother, hstored⟩ := find?_store ts (r := r.modify k fun c => { c with tensor := some t }) hn.2
    refine ⟨fun j hj => ?_, fun p hp => ?_⟩
    · rw [List.map_cons, List.mem_cons, not_or] at hj
      exact (hother j hj.2).trans ((hmodify j).trans (if_neg hj.1))
    · rcases List.mem_cons.mp hp with rfl | hp
      · exact (hother _ hn.1).trans ((hmodify k).trans (if_pos rfl))
      · have hne : p.1 ≠ k := fun h => hn.1 (List.mem_map.mpr ⟨p, hp, h⟩)
        refine (hstored p hp).trans ?_
        rw [hmodify, if_neg hne]

theorem keys_store : ∀ (ts : List (CoefficientKey × Tensor)) (r : Registry), (r.store ts).keys = r.keys
  | [], _ => rfl
  | (k, t) :: ts, r => by
    show ((r.modify k fun c => { c with tensor := some t }).store ts).keys = _
    rw [keys_store ts, keys_modify]

/-! ## Revisions handed to coefficients -/

theorem hand_cons_some {f : Revision} {hs : List (CoefficientKey × Revision)} {c c' : Coefficient}
    {b : Bool} (hc : r.find? k = some c) (ha : c.applyOrDefer f = .ok (c', b)) :
    r.hand ((k, f) :: hs) = (r.put c').hand hs := by
  rw [hand, hc]
  simp only
  rw [ha]

/-- Revisions handed to different coefficients, all of which take theirs. -/
theorem hand_ok : ∀ {hs : List (CoefficientKey × Revision)} {r r' : Registry},
    (hs.map Prod.fst).Nodup → r.hand hs = (r', none) → r'.keys = r.keys ∧
      (∀ j ∉ hs.map Prod.fst, r'.find? j = r.find? j) ∧
      ∀ h ∈ hs, ∀ c, r.find? h.1 = some c →
        ∃ c' b, c.applyOrDefer h.2 = .ok (c', b) ∧ r'.find? h.1 = some c'
  | [], _, _, _, h => by
    cases h
    exact ⟨rfl, fun _ _ => rfl, fun _ hh => (nomatch hh)⟩
  | (k, f) :: hs, r, r', hn, h => by
    rw [List.map_cons, List.nodup_cons] at hn
    cases hc : r.find? k with
    | none =>
        rw [hand, hc] at h
        obtain ⟨hkeys, hother, htaken⟩ := hand_ok hn.2 h
        refine ⟨hkeys, fun j hj => hother j fun hj' => hj (List.mem_cons_of_mem _ hj'), ?_⟩
        intro p hp c hpc
        rcases List.mem_cons.mp hp with rfl | hp
        · exact absurd (hc.symm.trans hpc) (nomatch ·)
        · exact htaken p hp c hpc
    | some c =>
        cases ha : c.applyOrDefer f with
        | error reason =>
            rw [hand, hc] at h
            simp only [ha] at h
            cases h
        | ok taken =>
            obtain ⟨c', b⟩ := taken
            rw [hand_cons_some hc ha] at h
            have hk : c'.key = k := (Coefficient.applyOrDefer_key ha).trans (key_of_find? hc)
            have hput : ∀ j, (r.put c').find? j = if j = k then (r.find? j).map fun _ => c' else r.find? j :=
              fun j => by rw [find?_put, hk]
            obtain ⟨hkeys, hother, htaken⟩ := hand_ok hn.2 h
            refine ⟨hkeys.trans (keys_put c'), fun j hj => ?_, ?_⟩
            · rw [List.map_cons, List.mem_cons, not_or] at hj
              exact (hother j hj.2).trans ((hput j).trans (if_neg hj.1))
            · intro p hp d hd
              rcases List.mem_cons.mp hp with rfl | hp
              · obtain rfl := Option.some.inj (hc.symm.trans hd)
                refine ⟨c', b, ha, (hother k hn.1).trans ((hput k).trans ?_)⟩
                rw [if_pos rfl, hc]
                rfl
              · have hne : p.1 ≠ k := fun he => hn.1 (List.mem_map.mpr ⟨p, hp, he⟩)
                exact htaken p hp d ((hput p.1).trans ((if_neg hne).trans hd))

/-- Revisions handed to different coefficients, one of which refuses. -/
theorem hand_error : ∀ {hs : List (CoefficientKey × Revision)} {r r' : Registry} {reason : String},
    (hs.map Prod.fst).Nodup → r.hand hs = (r', some reason) →
      ∃ h ∈ hs, ∃ c, r.find? h.1 = some c ∧ c.applyOrDefer h.2 = .error reason
  | [], _, _, _, _, h => by cases h
  | (k, f) :: hs, r, r', reason, hn, h => by
    rw [List.map_cons, List.nodup_cons] at hn
    cases hc : r.find? k with
    | none =>
        rw [hand, hc] at h
        obtain ⟨p, hp, c, hpc, he⟩ := hand_error hn.2 h
        exact ⟨p, List.mem_cons_of_mem _ hp, c, hpc, he⟩
    | some c =>
        cases ha : c.applyOrDefer f with
        | error reason' =>
            rw [hand, hc] at h
            simp only [ha] at h
            cases h
            exact ⟨(k, f), List.mem_cons_self, c, hc, ha⟩
        | ok taken =>
            obtain ⟨c', b⟩ := taken
            rw [hand_cons_some hc ha] at h
            obtain ⟨p, hp, d, hd, he⟩ := hand_error hn.2 h
            have hk : c'.key = k := (Coefficient.applyOrDefer_key ha).trans (key_of_find? hc)
            have hne : p.1 ≠ k := fun he => hn.1 (List.mem_map.mpr ⟨p, hp, he⟩)
            rw [find?_put, hk, if_neg hne] at hd
            exact ⟨p, List.mem_cons_of_mem _ hp, d, hd, he⟩

/-! ## Locks given back -/

/-- Locks of coefficients without a queue are just given back. -/
theorem releaseAll_eq : ∀ {ks : List CoefficientKey} {r : Registry}, ks.Nodup →
    (∀ k ∈ ks, ∀ c, r.find? k = some c → c.isLocked = true ∧ c.queue = []) →
    r.releaseAll ks = (r.modifyAll ks Coefficient.free, none)
  | [], _, _, _ => rfl
  | k :: ks, r, hn, h => by
    rw [List.nodup_cons] at hn
    have hrest : ∀ j ∈ ks, ∀ c, (r.modify k Coefficient.free).find? j = some c →
        c.isLocked = true ∧ c.queue = [] := by
      intro j hj c hc
      have hne : j ≠ k := fun he => hn.1 (he ▸ hj)
      rw [find?_modify Coefficient.free_key, if_neg hne] at hc
      exact h j (List.mem_cons_of_mem _ hj) c hc
    have ih := releaseAll_eq hn.2 hrest
    rw [releaseAll]
    show _ = ((r.modify k Coefficient.free).modifyAll ks Coefficient.free, none)
    cases hc : r.find? k with
    | none =>
        rw [modify_of_none hc _ Coefficient.free_key] at ih ⊢
        exact ih
    | some c =>
        obtain ⟨hl, hq⟩ := h k List.mem_cons_self c hc
        simp only [Coefficient.unlock_of_empty hl hq, put_eq_modify Coefficient.free_key hc, ih]
        rfl

/-! ## A substitution carried out -/

theorem checkOthers_cons (c : Coefficient) (cs : List Coefficient) : checkOthers s (c :: cs) =
    s.updateStored c.tensor >>= fun _ => checkOthers s cs := by
  show ((s.updateStored c.tensor >>= fun _ => pure ()) >>= fun _ => checkOthers s cs) = _
  cases s.updateStored c.tensor <;> rfl

theorem checkOthers_ok : ∀ {cs : List Coefficient}, checkOthers s cs = .ok () →
    ∀ c ∈ cs, ∃ t', s.updateStored c.tensor = .ok t'
  | [], _, _, hc => nomatch hc
  | d :: cs, h, c, hc => by
    rw [checkOthers_cons] at h
    obtain ⟨t', ht', h⟩ := bind_eq_ok h
    rcases List.mem_cons.mp hc with rfl | hc
    · exact ⟨t', ht'⟩
    · exact checkOthers_ok h c hc

theorem checkOthers_of_forall : ∀ {cs : List Coefficient},
    (∀ c ∈ cs, ∃ t', s.updateStored c.tensor = .ok t') → checkOthers s cs = .ok ()
  | [], _ => rfl
  | c :: cs, h => by
    obtain ⟨t', ht'⟩ := h c List.mem_cons_self
    rw [checkOthers_cons, ht']
    exact checkOthers_of_forall fun d hd => h d (List.mem_cons_of_mem _ hd)

theorem updates_of_forall : ∀ {ks : List CoefficientKey},
    (∀ k ∈ ks, ∃ t', s.updateStored (r.tensor? k) = .ok t') → ∃ ts, r.updates s ks = .ok ts
  | [], _ => ⟨[], rfl⟩
  | k :: ks, h => by
    obtain ⟨t', ht'⟩ := h k List.mem_cons_self
    obtain ⟨ts, hts⟩ := updates_of_forall fun j hj => h j (List.mem_cons_of_mem _ hj)
    refine ⟨(k, t') :: ts, ?_⟩
    unfold updates at hts ⊢
    rw [List.mapM_cons, ht', hts]
    rfl

theorem mem_others {c : Coefficient} : c ∈ r.others ks ↔
    c ∈ r.coefficients ∧ c.isFinished = true ∧ c.key ∉ ks := by
  unfold others
  rw [List.mem_filter]
  simp

theorem nodup_others (r : Registry) (ks : List CoefficientKey) :
    (((r.others ks).map fun c => (c.key, s.update)).map Prod.fst).Nodup := by
  rw [List.map_map]
  exact r.nodup_keys.sublist (List.filter_sublist.map Coefficient.key)

theorem carryOut_ok (hn : ks.Nodup) (h : r.carryOut s ks = .ok r') : r'.keys = r.keys ∧
    (∀ k ∈ ks, ∃ c t t', r.find? k = some c ∧ c.tensor = some t ∧ s.update t = .ok t' ∧
      r'.find? k = some { c with tensor := some t' }) ∧
    ∀ k ∉ ks, ∀ c, r.find? k = some c → ∃ c', r'.find? k = some c' ∧ c.Takes s c' := by
  obtain ⟨ts, hts, h⟩ := bind_eq_ok h
  obtain ⟨_, hcheck, h⟩ := bind_eq_ok h
  obtain ⟨hkeys, hupdates⟩ := updates_ok hts
  have hstore := find?_store ts (r := r) (hkeys ▸ hn)
  rw [hkeys] at hstore
  have hothers := checkOthers_ok hcheck
  cases hhand : (r.store ts).hand ((r.others ks).map fun c => (c.key, s.update)) with
  | mk r'' failure =>
      rw [hhand] at h
      cases failure with
      | some reason => cases h
      | none =>
          cases h
          obtain ⟨hkeys', hother, htaken⟩ := hand_ok (nodup_others r ks) hhand
          have hnot : ∀ k ∈ ks, k ∉ ((r.others ks).map fun c => (c.key, s.update)).map Prod.fst := by
            intro k hk hmem
            rw [List.map_map] at hmem
            obtain ⟨c, hc, rfl⟩ := List.mem_map.mp hmem
            exact (mem_others.mp hc).2.2 hk
          refine ⟨hkeys'.trans (keys_store ts r), fun k hk => ?_, fun k hk c hc => ?_⟩
          · obtain ⟨p, hp, rfl⟩ : ∃ p ∈ ts, p.1 = k := List.mem_map.mp (hkeys ▸ hk)
            obtain ⟨t, ht, hu⟩ := hupdates p hp
            obtain ⟨c, hc, ht⟩ := Option.bind_eq_some_iff.mp ht
            refine ⟨c, t, p.2, hc, ht, hu, (hother _ (hnot _ hk)).trans ((hstore.2 p hp).trans ?_)⟩
            rw [hc]
            rfl
          · have hstored : (r.store ts).find? k = some c := (hstore.1 k hk).trans hc
            obtain rfl := key_of_find? hc
            cases hf : c.isFinished with
            | false =>
                refine ⟨c, (hother _ fun hmem => ?_).trans hstored, .ignored hf⟩
                rw [List.map_map] at hmem
                obtain ⟨d, hd, hdk⟩ := List.mem_map.mp hmem
                obtain ⟨hdr, hdf, -⟩ := mem_others.mp hd
                have hfound := find?_key hdr
                rw [show d.key = c.key from hdk, hc] at hfound
                obtain rfl := Option.some.inj hfound
                exact absurd (hf.symm.trans hdf) (nomatch ·)
            | true =>
                have hmem : c ∈ r.others ks := mem_others.mpr ⟨mem_of_find? hc, hf, hk⟩
                obtain ⟨t', ht'⟩ := hothers c hmem
                obtain ⟨t, ht, hu⟩ := updateStored_ok ht'
                obtain ⟨c', b, ha, hc'⟩ := htaken (c.key, s.update) (List.mem_map_of_mem hmem) c hstored
                refine ⟨c', hc', ?_⟩
                rcases Coefficient.applyOrDefer_ok ha with
                  ⟨u, u', -, hl, hcu, huu, rfl⟩ | ⟨-, hl, rfl⟩ | ⟨hno, rfl⟩
                · exact .revised hf hl hcu huu
                · exact .queued hf hl
                · rcases hno with hno | hno
                  · exact absurd (hf.symm.trans hno) (nomatch ·)
                  · exact absurd (hno.symm.trans ht) (nomatch ·)

/-- A substitution that has a value on all the tensors is carried out. -/
theorem carryOut_of_forall (hn : ks.Nodup) (hown : ∀ k ∈ ks, ∃ t', s.updateStored (r.tensor? k) = .ok t')
    (hothers : ∀ c ∈ r.others ks, ∃ t', s.updateStored c.tensor = .ok t') :
    ∃ r', r.carryOut s ks = .ok r' := by
  obtain ⟨ts, hts⟩ := updates_of_forall hown
  have hcheck := checkOthers_of_forall hothers
  obtain ⟨hkeys, -⟩ := updates_ok hts
  have hstore := find?_store ts (r := r) (hkeys ▸ hn)
  rw [hkeys] at hstore
  simp only [carryOut, hts, hcheck, bind, Except.bind]
  cases hhand : (r.store ts).hand ((r.others ks).map fun c => (c.key, s.update)) with
  | mk r'' failure =>
      cases failure with
      | none => exact ⟨r'', rfl⟩
      | some reason =>
          obtain ⟨h, hh, c, hc, he⟩ := hand_error (nodup_others r ks) hhand
          obtain ⟨d, hd, rfl⟩ := List.mem_map.mp hh
          obtain ⟨hdr, -, hdk⟩ := mem_others.mp hd
          rw [hstore.1 _ hdk, find?_key hdr] at hc
          obtain rfl := Option.some.inj hc
          obtain ⟨t, -, -, ht, hu⟩ := Coefficient.applyOrDefer_error he
          obtain ⟨t', ht'⟩ := hothers d hd
          obtain ⟨u, hu', hok⟩ := updateStored_ok ht'
          rw [ht] at hu'
          obtain rfl := Option.some.inj hu'
          cases hu.symm.trans hok

end Registry

/-! ## The whole solve -/

namespace Equation

variable {e e' : Equation}

theorem coefficients_congr (h : e'.reading = e.reading) : e'.coefficients = e.coefficients := by
  unfold coefficients
  rw [h]

theorem isReady_congr {r : Registry} (h : e'.reading = e.reading) : e'.isReady r = e.isReady r := by
  unfold isReady
  rw [coefficients_congr h]

theorem mem_acquisition {e : Equation} {k : CoefficientKey} :
    k ∈ e.acquisition ↔ k ∈ e.coefficients := (List.mergeSort_perm _ _).mem_iff

theorem nodup_eraseDups {α : Type} [DecidableEq α] : ∀ xs : List α, xs.eraseDups.Nodup
  | [] => List.nodup_nil
  | x :: xs => by
    rw [List.eraseDups_cons, List.nodup_cons, List.mem_eraseDups]
    refine ⟨by simp, nodup_eraseDups _⟩
termination_by xs => xs.length
decreasing_by exact Nat.lt_succ_of_le (List.length_filter_le _ _)

theorem nodup_coefficients (e : Equation) : e.coefficients.Nodup := nodup_eraseDups _

theorem nodup_acquisition (e : Equation) : e.acquisition.Nodup :=
  (List.mergeSort_perm _ _).nodup_iff.mpr e.nodup_coefficients

end Equation

namespace Registry

variable {r r' : Registry} {e : Equation} {s : Substitution}

/-- After the evaluation the locks of the equation are still held, and nothing waits in the queues of
its coefficients. -/
def HoldsOwn (r : Registry) (e : Equation) : Prop :=
  ∀ k ∈ e.acquisition, ∀ c, ((r.lockAll e.acquisition).evaluate e).1.find? k = some c →
    c.isLocked = true ∧ c.queue = []

theorem modifyAll_reverse (r : Registry) (ks : List CoefficientKey) :
    r.modifyAll ks.reverse Coefficient.free = r.modifyAll ks Coefficient.free := by
  refine ext_find? (by rw [keys_modifyAll, keys_modifyAll]) fun k => ?_
  rw [find?_modifyAll Coefficient.free_key fun _ => rfl, find?_modifyAll Coefficient.free_key fun _ => rfl]
  simp only [List.mem_reverse]

/-- The registry after a solve: the locks are taken, the work is done, and the locks are released in reverse. -/
theorem solve_fst (r : Registry) (e : Equation) : (r.solve e).1 =
    (((r.lockAll e.acquisition).solveLocked e).1.releaseAll e.acquisition.reverse).1 := by
  unfold solve
  simp only
  split <;> rfl

/-- The state of an equation plays no part in its solve. -/
theorem solve_state (r : Registry) (e : Equation) (state : EquationState) :
    r.solve { e with state := state } = r.solve e := by
  have hcoefficients : ({ e with state := state } : Equation).coefficients = e.coefficients := rfl
  unfold solve solveLocked evaluate bindings Equation.acquisition
  rw [hcoefficients]

/-- **A solve in three steps**: the evaluation, the substitution carried out, the locks given back. -/
theorem solve_eq (hown : r.HoldsOwn e) : r.solve e =
    match ((r.lockAll e.acquisition).evaluate e).2 with
    | .error cause => (r.afterEvaluation e, .error cause)
    | .ok s =>
      match ((r.lockAll e.acquisition).evaluate e).1.carryOut s e.acquisition with
      | .error cause => (r.afterEvaluation e, .error cause)
      | .ok r' => (r'.modifyAll e.acquisition Coefficient.free, .ok s) := by
  have hn : e.acquisition.reverse.Nodup := List.nodup_reverse.mpr e.nodup_acquisition
  have hrelease : ∀ r' : Registry, (∀ k ∈ e.acquisition, ∀ c, r'.find? k = some c →
      c.isLocked = true ∧ c.queue = []) → r'.releaseAll e.acquisition.reverse =
        (r'.modifyAll e.acquisition Coefficient.free, none) := by
    intro r' h
    rw [releaseAll_eq hn fun k hk => h k (List.mem_reverse.mp hk), modifyAll_reverse]
  have hheld := hrelease _ hown
  unfold HoldsOwn at hown
  unfold solve solveLocked afterEvaluation
  cases hevaluate : (r.lockAll e.acquisition).evaluate e with
  | mk l outcome =>
      rw [hevaluate] at hown hheld
      cases outcome with
      | error cause => simp only [hheld]
      | ok s =>
          simp only
          cases hcarry : l.carryOut s e.acquisition with
          | error cause => simp only [hheld]
          | ok r' =>
              obtain ⟨hkeys, htaken, -⟩ := carryOut_ok e.nodup_acquisition hcarry
              have hheld' : ∀ k ∈ e.acquisition, ∀ c, r'.find? k = some c →
                  c.isLocked = true ∧ c.queue = [] := by
                intro k hk c hc
                obtain ⟨d, t, t', hd, -, -, hc'⟩ := htaken k hk
                obtain rfl := Option.some.inj (hc.symm.trans hc')
                exact hown k hk d hd
              simp only [hrelease r' hheld']

/-- A solve that succeeds: the substitution of the evaluation is taken by every coefficient. -/
theorem solve_ok (hown : r.HoldsOwn e)
    (hfinished : ∀ k ∈ e.acquisition, ∀ c, ((r.lockAll e.acquisition).evaluate e).1.find? k = some c →
      c.isFinished = true ∨ c.tensor = none) (hs : (r.solve e).2 = .ok s) :
    ((r.lockAll e.acquisition).evaluate e).2 = .ok s ∧
      (∀ k ∈ e.acquisition, ∃ t, (r.afterEvaluation e).tensor? k = some t) ∧
      Pointwise (Coefficient.Takes s) (r.afterEvaluation e) (r.solve e).1 := by
  have heq := solve_eq hown
  cases hevaluate : ((r.lockAll e.acquisition).evaluate e).2 with
  | error cause =>
      rw [hevaluate] at heq
      rw [heq] at hs
      cases hs
  | ok s' =>
      rw [hevaluate] at heq
      cases hcarry : ((r.lockAll e.acquisition).evaluate e).1.carryOut s' e.acquisition with
      | error cause =>
          simp only [hcarry] at heq
          rw [heq] at hs
          cases hs
      | ok r' =>
          simp only [hcarry] at heq
          rw [heq] at hs ⊢
          obtain rfl : s' = s := Except.ok.inj hs
          obtain ⟨hkeys, htaken, hothers⟩ := carryOut_ok e.nodup_acquisition hcarry
          have hfree := fun (r : Registry) k =>
            find?_modifyAll (j := k) Coefficient.free_key (fun _ => rfl) e.acquisition r
          refine ⟨rfl, fun k hk => ?_, pointwise_of_find? ?_ fun k c hc => ?_⟩
          · obtain ⟨d, t, -, hd, ht, -⟩ := htaken k hk
            refine ⟨t, Option.bind_eq_some_iff.mpr ⟨d.free, ?_, ht⟩⟩
            unfold afterEvaluation
            rw [hfree, if_pos hk, hd]
            rfl
          · unfold afterEvaluation
            rw [keys_modifyAll, keys_modifyAll, hkeys]
          · unfold afterEvaluation at hc
            rw [hfree] at hc
            rw [hfree]
            by_cases hk : k ∈ e.acquisition
            · rw [if_pos hk] at hc ⊢
              obtain ⟨d, t, t', hd, ht, hu, hd'⟩ := htaken k hk
              rw [hd] at hc
              obtain rfl := Option.some.inj hc
              have hf : d.isFinished = true :=
                (hfinished k hk d hd).resolve_right fun hno => (nomatch hno.symm.trans ht)
              rw [hd']
              exact ⟨_, rfl, .revised (c := d.free) hf rfl ht hu⟩
            · rw [if_neg hk] at hc ⊢
              exact hothers k hk c hc

/-- A solve that fails leaves the registry as the evaluation does. -/
theorem solve_error (hown : r.HoldsOwn e) {cause : SolveCause} (h : (r.solve e).2 = .error cause) :
    (r.solve e).1 = r.afterEvaluation e := by
  have heq := solve_eq hown
  split at heq
  · rw [heq]
  · split at heq
    · rw [heq]
    · rw [heq] at h
      cases h

/-! ## Evaluations without a trace -/

theorem isBlocked_eq_false : e.isBlocked r = false ↔
    ∀ k ∈ e.coefficients, ∀ c, r.find? k = some c → c.isLocked = false := by
  unfold Equation.isBlocked isLocked
  rw [List.any_eq_false]
  refine forall₂_congr fun k _ => ?_
  cases r.find? k <;> simp

theorem isReady_iff : e.isReady r = true ↔
    ∀ k ∈ e.coefficients, ∃ c, r.find? k = some c ∧ c.isFinished = true := by
  unfold Equation.isReady isFinished
  rw [List.all_eq_true]
  refine forall₂_congr fun k _ => ?_
  cases r.find? k <;> simp

/-- An evaluation that leaves the registry alone. -/
theorem afterEvaluation_eq (hfree : e.isBlocked r = false)
    (hquiet : ((r.lockAll e.acquisition).evaluate e).1 = r.lockAll e.acquisition) :
    r.afterEvaluation e = r := by
  unfold afterEvaluation
  rw [hquiet]
  refine ext_find? (by rw [keys_modifyAll, keys_lockAll]) fun k => ?_
  rw [find?_modifyAll Coefficient.free_key fun _ => rfl, find?_lockAll]
  split
  · rename_i hk
    rw [Option.map_map]
    cases hc : r.find? k with
    | none => rfl
    | some c =>
        have hl := isBlocked_eq_false.mp hfree k (Equation.mem_acquisition.mp hk) c hc
        rw [Option.map_some]
        cases c
        cases hl
        rfl
  · rfl

theorem evaluate_quiet (h : ∀ g, e.given = some g → g.handed = []) : (r.evaluate e).1 = r := by
  unfold evaluate
  split
  · rename_i g hg
    rw [h g hg]
    rfl
  · split <;> rfl

end Registry

end TensorEquations
