import Mathlib.Data.List.Forall2
import Mathlib.Data.List.Nodup
import TensorEquations.Coefficient.Registry

/-!
# Registries as finite maps

* `Registry.find?_eq_some` — a key finds the coefficient that has it.
* `Registry.ext_find?` — a registry is determined by its keys in order and by what they find.
* `Registry.find?_modify`, `Registry.find?_put`, `Registry.find?_register` — what is found after a change.
* `Registry.observeAll`, `Registry.find?_observeAll` — several coefficients observed, which are made if there
  are none.
* `Registry.forall_put`, `Registry.forall_register`, `Registry.forall_observeAll` — what all coefficients have
  after a change.
* `Registry.Pointwise`, `Registry.pointwise_of_find?` — **two registries with the same keys in the same order,
  whose coefficients are related one by one.**
-/

namespace TensorEquations

theorem Coefficient.observe_key (c : Coefficient) (o : Observer) : (c.observe o).key = c.key := rfl

namespace Registry

variable {r r' : Registry} {j k : CoefficientKey} {c : Coefficient}

theorem find?_eq_some : r.find? k = some c ↔ c ∈ r.coefficients ∧ c.key = k := by
  constructor
  · intro h
    exact ⟨List.mem_of_find?_eq_some h, by simpa using List.find?_some h⟩
  · rintro ⟨hc, rfl⟩
    cases h : r.find? c.key with
    | none =>
        have := List.find?_eq_none.mp h c hc
        simp at this
    | some d =>
        have hd : d ∈ r.coefficients := List.mem_of_find?_eq_some h
        have hk : d.key = c.key := by simpa using List.find?_some h
        rw [List.inj_on_of_nodup_map r.nodup_keys hd hc hk]

theorem find?_key (hc : c ∈ r.coefficients) : r.find? c.key = some c := find?_eq_some.mpr ⟨hc, rfl⟩

theorem key_of_find? (h : r.find? k = some c) : c.key = k := (find?_eq_some.mp h).2

theorem mem_of_find? (h : r.find? k = some c) : c ∈ r.coefficients := (find?_eq_some.mp h).1

theorem mem_keys_iff : k ∈ r.keys ↔ ∃ c, r.find? k = some c := by
  constructor
  · intro h
    obtain ⟨c, hc, rfl⟩ := List.mem_map.mp h
    exact ⟨c, find?_key hc⟩
  · rintro ⟨c, hc⟩
    exact List.mem_map.mpr ⟨c, find?_eq_some.mp hc⟩

theorem tensor?_of_find? (h : r.find? k = some c) : r.tensor? k = c.tensor := by
  rw [tensor?, h]
  rfl

theorem isFinished_of_find? (h : r.find? k = some c) : r.isFinished k = c.isFinished := by
  rw [isFinished, h]
  rfl

theorem isLocked_of_find? (h : r.find? k = some c) : r.isLocked k = c.isLocked := by
  rw [isLocked, h]
  rfl

theorem exists_of_isFinished (h : r.isFinished k = true) : ∃ c, r.find? k = some c ∧ c.isFinished = true :=
  (Option.any_eq_true _ _).mp h

theorem find?_eq_none : r.find? k = none ↔ k ∉ r.keys := by
  rw [mem_keys_iff]
  cases r.find? k <;> simp

/-! ## Changes -/

@[simp] theorem keys_modify (f : Coefficient → Coefficient) : (r.modify k f).keys = r.keys := by
  unfold keys modify
  rw [List.map_map]
  refine List.map_congr_left fun c _ => ?_
  rw [Function.comp]
  split <;> rfl

theorem find?_modify {f : Coefficient → Coefficient} (hf : ∀ c, (f c).key = c.key) :
    (r.modify k f).find? j = if j = k then (r.find? j).map f else r.find? j := by
  have hmap : ∀ c : Coefficient, (if c.key = k then { f c with key := c.key } else c) =
      if c.key = k then f c else c := by
    intro c
    split
    · rw [← hf c]
    · rfl
  have hkey : ((fun c : Coefficient => decide (c.key = j)) ∘ fun c : Coefficient =>
      if c.key = k then f c else c) = fun c => decide (c.key = j) := by
    funext c
    rw [Function.comp]
    split
    · rw [hf c]
    · rfl
  unfold find? modify
  simp only [hmap]
  rw [List.find?_map, hkey]
  split
  · rename_i hjk
    subst hjk
    refine Option.map_congr fun c hc => ?_
    rw [if_pos (by simpa using List.find?_some hc)]
  · rename_i hjk
    cases hc : r.coefficients.find? fun c => decide (c.key = j) with
    | none => rfl
    | some c =>
        have hcj : c.key = j := by simpa using List.find?_some hc
        rw [Option.map_some, if_neg (hcj ▸ hjk)]

@[simp] theorem keys_put (c : Coefficient) : (r.put c).keys = r.keys := keys_modify _

theorem find?_put : (r.put c).find? j = if j = c.key then (r.find? j).map fun _ => c else r.find? j := by
  have hput : r.put c = r.modify c.key fun d => { c with key := d.key } := rfl
  rw [hput, find?_modify (f := fun d => { c with key := d.key }) fun _ => rfl]
  split
  · rename_i hj
    refine Option.map_congr fun d hd => ?_
    have hk : d.key = c.key := (key_of_find? hd).trans hj
    rw [hk]
  · rfl

/-- A coefficient in the place of the one that is found. -/
theorem find?_put_of_find? {c' : Coefficient} (hc : r.find? k = some c) (hkey : c'.key = c.key) :
    (r.put c').find? j = if j = k then some c' else r.find? j := by
  rw [find?_put, hkey, key_of_find? hc]
  split
  · rename_i hj
    rw [hj, hc]
    rfl
  · rfl

theorem find?_register : (r.register k).find? j =
    (r.find? j).or (if j = k then some { key := k } else none) := by
  unfold register
  split
  · rename_i hk
    split
    · rename_i hj
      subst hj
      obtain ⟨c, hc⟩ := mem_keys_iff.mp hk
      rw [hc]
      rfl
    · exact (Option.or_none).symm
  · show List.find? _ (r.coefficients ++ [_]) = _
    rw [List.find?_append]
    congr 1
    by_cases hj : j = k
    · rw [if_pos hj]
      simp [hj]
    · rw [if_neg hj]
      simp [Ne.symm hj]

/-- What a new coefficient has in common with none is as it was before. -/
theorem apply_find?_register {β : Type*} (f : Option Coefficient → β) (hf : f (some { key := k }) = f none) :
    f ((r.register k).find? j) = f (r.find? j) := by
  rw [find?_register]
  cases r.find? j with
  | some c => rfl
  | none =>
      rw [Option.none_or]
      split
      · exact hf
      · rfl

theorem exists_find?_register (r : Registry) (k : CoefficientKey) : ∃ c, (r.register k).find? k = some c := by
  rw [find?_register, if_pos rfl]
  cases r.find? k <;> exact ⟨_, rfl⟩

theorem mem_coefficients_register (hc : c ∈ (r.register k).coefficients) :
    c ∈ r.coefficients ∨ c = { key := k } := by
  unfold register at hc
  split at hc
  · exact .inl hc
  · exact (List.mem_append.mp hc).imp_right List.mem_singleton.mp

/-! ## What all coefficients have -/

variable {P : Coefficient → Prop}

theorem forall_put {c' : Coefficient} (h : ∀ c ∈ r.coefficients, P c) (hc' : P c') :
    ∀ c ∈ (r.put c').coefficients, P c := by
  intro d hd
  have hfound := find?_key hd
  rw [find?_put] at hfound
  split at hfound
  · obtain ⟨_, -, rfl⟩ := Option.map_eq_some_iff.mp hfound
    exact hc'
  · exact h d (mem_of_find? hfound)

theorem forall_modify {f : Coefficient → Coefficient} (hf : ∀ c, (f c).key = c.key)
    (h : ∀ c ∈ r.coefficients, P c) (hP : ∀ c, P c → P (f c)) :
    ∀ c ∈ (r.modify k f).coefficients, P c := by
  intro d hd
  have hfound := find?_key hd
  rw [find?_modify hf] at hfound
  split at hfound
  · obtain ⟨c, hc, rfl⟩ := Option.map_eq_some_iff.mp hfound
    exact hP c (h c (mem_of_find? hc))
  · exact h d (mem_of_find? hfound)

theorem forall_register (h : ∀ c ∈ r.coefficients, P c) (hk : P { key := k }) :
    ∀ c ∈ (r.register k).coefficients, P c := by
  intro c hc
  rcases mem_coefficients_register hc with hc | rfl
  · exact h c hc
  · exact hk

/-! ## Observers -/

/-- Several coefficients observed; one that there is not yet is made. -/
def observeAll (r : Registry) (o : Observer) (ks : List CoefficientKey) : Registry :=
  ks.foldl (fun r k => (r.register k).modify k fun c => c.observe o) r

variable {o : Observer}

theorem find?_observe : ((r.register k).modify k fun c => c.observe o).find? j =
    if j = k then some (((r.find? j).getD { key := j }).observe o) else r.find? j := by
  rw [find?_modify (Coefficient.observe_key · o), find?_register]
  split
  · rename_i hj
    rw [hj]
    cases r.find? k <;> rfl
  · rw [Option.or_none]

/-- What is found after several coefficients have been observed. -/
theorem find?_observeAll : ∀ {ks : List CoefficientKey} {r : Registry}, ks.Nodup →
    (r.observeAll o ks).find? j =
      if j ∈ ks then some (((r.find? j).getD { key := j }).observe o) else r.find? j
  | [], _, _ => rfl
  | k :: ks, r, hn => by
    rw [List.nodup_cons] at hn
    show (((r.register k).modify k fun c => c.observe o).observeAll o ks).find? j = _
    rw [find?_observeAll hn.2, find?_observe]
    by_cases hj : j = k
    · have hmem : j ∈ k :: ks := hj ▸ List.mem_cons_self
      rw [if_neg (hj ▸ hn.1), if_pos hj, if_pos hmem]
    · have hmem : j ∈ k :: ks ↔ j ∈ ks := by simp [hj]
      simp only [hmem, if_neg hj]

theorem forall_observeAll (hopen : ∀ k, P { key := k }) (hobserve : ∀ c, P c → P (c.observe o)) :
    ∀ (ks : List CoefficientKey) {r : Registry}, (∀ c ∈ r.coefficients, P c) →
      ∀ c ∈ (r.observeAll o ks).coefficients, P c
  | [], _, h => h
  | k :: ks, _, h => forall_observeAll hopen hobserve ks
      (forall_modify (Coefficient.observe_key · o) (forall_register h (hopen k)) hobserve)

/-! ## Registries side by side -/

/-- The same keys in the same order, with related coefficients. -/
def Pointwise (R : Coefficient → Coefficient → Prop) (r r' : Registry) : Prop :=
  List.Forall₂ (fun c c' => c'.key = c.key ∧ R c c') r.coefficients r'.coefficients

variable {R : Coefficient → Coefficient → Prop}

theorem Pointwise.keys_eq (h : Pointwise R r r') : r'.keys = r.keys := by
  have hkeys : List.Forall₂ (fun k k' => k' = k) r.keys r'.keys :=
    List.forall₂_map_left_iff.mpr (List.forall₂_map_right_iff.mpr (h.imp fun _ _ hc => hc.1))
  exact List.forall₂_eq_eq_eq ▸ hkeys.flip

theorem Pointwise.find? (h : Pointwise R r r') (hc : r.find? k = some c) :
    ∃ c', r'.find? k = some c' ∧ R c c' := by
  obtain ⟨hmem, rfl⟩ := find?_eq_some.mp hc
  obtain ⟨i, hi, rfl⟩ := List.getElem_of_mem hmem
  have hi' : i < r'.coefficients.length := h.length_eq ▸ hi
  have hget := List.Forall₂.get h hi hi'
  exact ⟨_, find?_eq_some.mpr ⟨List.getElem_mem hi', hget.1⟩, hget.2⟩

theorem Pointwise.exists_of_mem {c' : Coefficient} (h : Pointwise R r r') (hc' : c' ∈ r'.coefficients) :
    ∃ c ∈ r.coefficients, c'.key = c.key ∧ R c c' := by
  have hkeys : c'.key ∈ r.keys := h.keys_eq ▸ List.mem_map_of_mem hc'
  obtain ⟨c, hc⟩ := mem_keys_iff.mp hkeys
  obtain ⟨d, hd, hrelated⟩ := h.find? hc
  obtain rfl := Option.some.inj (hd.symm.trans (find?_key hc'))
  exact ⟨c, mem_of_find? hc, (key_of_find? hc).symm, hrelated⟩

/-- What all coefficients have after a step that keeps it. -/
theorem Pointwise.forall (h : Pointwise R r r') (hr : ∀ c ∈ r.coefficients, P c)
    (hR : ∀ c c', c'.key = c.key → R c c' → P c → P c') : ∀ c ∈ r'.coefficients, P c := by
  intro c' hc'
  obtain ⟨c, hc, hkey, hrelated⟩ := h.exists_of_mem hc'
  exact hR c c' hkey hrelated (hr c hc)

theorem pointwise_of_find? (hkeys : r'.keys = r.keys)
    (h : ∀ k c, r.find? k = some c → ∃ c', r'.find? k = some c' ∧ R c c') : Pointwise R r r' := by
  have hlength : r.coefficients.length = r'.coefficients.length := by
    have := congrArg List.length hkeys
    simpa [keys] using this.symm
  refine List.forall₂_iff_get.mpr ⟨hlength, fun i hi hi' => ?_⟩
  obtain ⟨c', hc', hR⟩ := h _ _ (find?_key (List.getElem_mem hi))
  have hkey : r'.coefficients[i].key = r.coefficients[i].key := by
    have := List.getElem_of_eq hkeys (by simpa [keys] using hi')
    simpa [keys] using this
  have hfound := find?_key (List.getElem_mem hi')
  rw [hkey, hc'] at hfound
  obtain rfl := Option.some.inj hfound
  exact ⟨hkey, hR⟩

theorem ext_find? (hkeys : r'.keys = r.keys) (h : ∀ k, r'.find? k = r.find? k) : r' = r := by
  have hpointwise : Pointwise (fun c c' => c' = c) r r' :=
    pointwise_of_find? hkeys fun k c hc => ⟨c, (h k).trans hc, rfl⟩
  have hcoefficients : r.coefficients = r'.coefficients :=
    List.forall₂_eq_eq_eq ▸ hpointwise.imp fun _ _ hc => hc.2.symm
  cases r
  cases r'
  cases hcoefficients
  rfl

/-- A changed coefficient put back in its place. -/
theorem put_eq_modify {f : Coefficient → Coefficient} (hf : ∀ c, (f c).key = c.key)
    (hc : r.find? k = some c) : r.put (f c) = r.modify k f := by
  have hk := key_of_find? hc
  refine ext_find? (by rw [keys_put, keys_modify]) fun j => ?_
  rw [find?_put, find?_modify hf, hf c, hk]
  split
  · rename_i hj
    rw [hj, hc]
    rfl
  · rfl

/-- A coefficient that is there already. -/
theorem register_of_find? (hc : r.find? k = some c) : r.register k = r :=
  dif_pos (mem_keys_iff.mpr ⟨c, hc⟩)

/-- A coefficient in its own place. -/
theorem put_self (hc : r.find? k = some c) : r.put c = r := by
  refine ext_find? (keys_put c) fun j => ?_
  rw [find?_put_of_find? hc rfl]
  split
  · rename_i hj
    rw [hj, hc]
  · rfl

/-- Of two coefficients put in one place the second one stays. -/
theorem put_put {d : Coefficient} (hkey : d.key = c.key) : (r.put c).put d = r.put d := by
  refine ext_find? (by rw [keys_put, keys_put, keys_put]) fun j => ?_
  rw [find?_put, find?_put, find?_put, hkey]
  split
  · rw [Option.map_map]
    rfl
  · rfl

theorem modify_of_none (hk : r.find? k = none) (f : Coefficient → Coefficient)
    (hf : ∀ c, (f c).key = c.key) : r.modify k f = r := by
  refine ext_find? (keys_modify f) fun j => ?_
  rw [find?_modify hf]
  split
  · rename_i hj
    rw [hj, hk]
    rfl
  · rfl

end Registry

end TensorEquations
