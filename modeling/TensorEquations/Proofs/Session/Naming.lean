import TensorEquations.CommandLine.Run
import TensorEquations.Proofs.Coefficient.Name
import TensorEquations.Proofs.Equation.Body
import TensorEquations.Proofs.Session.Run

/-!
# What is found under a name

Coefficients are kept by their keys, but an equation, a search and the results of a run know them by name
only. Each of these finds the right coefficient exactly if no two names are the same.

* `foldl_put` — tables that are filled name by name.
* `Equation.reads_iff` — an equation reads every tag with the tensor that it means.
* `Registry.byName?_iff` — a search finds every coefficient under its name.
* `CommandLine.Results.ofSession_iff` — the results have an entry for every coefficient.
* `Session.names_distinguish` — **names are enough exactly for keys that are distinguished.**
-/

namespace TensorEquations

/-! ## Tables by name -/

section Table

variable {α β : Type} {put : List (String × α) → String → α → List (String × α)}

/-- A table filled under names that are pairwise different. -/
theorem foldl_put (hput : ∀ vs name v, name ∉ vs.map Prod.fst → put vs name v = vs ++ [(name, v)])
    {name : β → String} {value : β → α} : ∀ {xs : List β} {w : List (String × α)},
    (w.map Prod.fst ++ xs.map name).Nodup →
    xs.foldl (fun vs x => put vs (name x) (value x)) w = w ++ xs.map fun x => (name x, value x)
  | [], w, _ => (List.append_nil w).symm
  | x :: xs, w, h => by
    have hnew : name x ∉ w.map Prod.fst :=
      fun hmem => List.disjoint_of_nodup_append h hmem List.mem_cons_self
    have hnext : ((w ++ [(name x, value x)]).map Prod.fst ++ xs.map name).Nodup := by
      rwa [List.map_append, List.append_assoc]
    rw [List.foldl_cons, hput _ _ _ hnew, foldl_put hput hnext, List.append_assoc]
    rfl

/-- However a table is filled, its names are pairwise different. -/
theorem nodup_foldl_put (hput : ∀ vs name v, (vs.map Prod.fst).Nodup → ((put vs name v).map Prod.fst).Nodup)
    (name : β → String) (value : β → α) : ∀ (xs : List β) {w : List (String × α)}, (w.map Prod.fst).Nodup →
    ((xs.foldl (fun vs x => put vs (name x) (value x)) w).map Prod.fst).Nodup
  | [], _, h => h
  | _ :: xs, _, h => nodup_foldl_put hput name value xs (hput _ _ _ h)

end Table

/-! ## The names of an equation -/

theorem Bindings.assign_of_notMem {name : String} (v : Value) : ∀ {vs : Bindings}, name ∉ vs.map Prod.fst →
    vs.assign name v = vs ++ [(name, v)]
  | [], _ => rfl
  | (other, w) :: vs, h => by
    rw [List.map_cons, List.mem_cons, not_or] at h
    rw [assign, if_neg (Ne.symm h.1), assign_of_notMem v h.2]
    rfl

/-- A registry in which one coefficient has a tensor and no other has one. -/
theorem Registry.exists_tensor (k : CoefficientKey) (t : Tensor) :
    ∃ r : Registry, r.tensor? k = some t ∧ ∀ j, j ≠ k → r.tensor? j = none := by
  refine ⟨(empty.register k).put { key := k, tensor := some t }, ?_, fun j hj => ?_⟩
  · rw [tensor?, find?_put, if_pos rfl, find?_register, if_pos rfl]
    rfl
  · rw [tensor?, find?_put, if_neg hj, find?_register, if_neg hj]
    rfl

namespace Equation

variable {e : Equation} {T : CoefficientKey → Option Tensor}

/-- Under distinguished keys every name stands for the tensor of its own coefficient. -/
theorem lookup_values (h : CoefficientKey.AreDistinguished e.coefficients) {k : CoefficientKey}
    (hk : k ∈ e.coefficients) : (e.values T).lookup k.name = some (.stored (T k)) := by
  have hn := CoefficientKey.areDistinguished_iff.mp h
  have hvalues : e.values T = e.coefficients.map fun k => (k.name, Value.stored (T k)) :=
    foldl_put (fun _ _ v => Bindings.assign_of_notMem v) (w := []) hn
  rw [hvalues]
  exact lookup_map_of_nodup _ hn k hk

/-- **Tags are read with the tensors that they mean exactly under distinguished keys.** -/
theorem reads_iff (e : Equation) : CoefficientKey.AreDistinguished e.coefficients ↔
    ∀ r : Registry, ∀ tag ∈ e.reading.tags,
      (r.bindings e).lookup tag.key.name = some (.stored (r.tensor? tag.key)) := by
  have hmem : ∀ k, k ∈ e.coefficients ↔ ∃ tag ∈ e.reading.tags, tag.key = k := by
    intro k
    rw [coefficients, List.mem_eraseDups, List.mem_map]
  constructor
  · intro h r tag htag
    exact lookup_values h ((hmem _).mpr ⟨tag, htag, rfl⟩)
  · intro h
    refine CoefficientKey.areDistinguished_iff.mpr (List.Nodup.map_on ?_ e.nodup_coefficients)
    intro j hj k hk hname
    by_contra hne
    -- only the second of the two has a tensor
    obtain ⟨r, hk', hj'⟩ := Registry.exists_tensor k (.scalar 0)
    have hread : ∀ i ∈ e.coefficients, (r.bindings e).lookup i.name = some (.stored (r.tensor? i)) := by
      intro i hi
      obtain ⟨tag, htag, rfl⟩ := (hmem i).mp hi
      exact h r tag htag
    have hreadk := hread k hk
    rw [← hname, hread j hj, hj' j hne, hk'] at hreadk
    cases hreadk

end Equation

/-! ## Searches by name -/

namespace Registry

variable {r : Registry}

theorem map_name (r : Registry) : r.keys.map CoefficientKey.name = r.coefficients.map Coefficient.name := by
  rw [keys, List.map_map]
  rfl

theorem areDistinguished_iff : CoefficientKey.AreDistinguished r.keys ↔
    ∀ c ∈ r.coefficients, ∀ d ∈ r.coefficients, c.name = d.name → c = d := by
  rw [CoefficientKey.areDistinguished_iff, map_name]
  constructor
  · exact fun h c hc d hd => List.inj_on_of_nodup_map h hc hd
  · exact fun h => List.Nodup.map_on h r.nodup_keys.of_map

/-- A search finds every coefficient under its name exactly if no two have one name. -/
theorem byName?_iff : CoefficientKey.AreDistinguished r.keys ↔
    ∀ c ∈ r.coefficients, r.byName? c.name = some c := by
  rw [areDistinguished_iff]
  constructor
  · intro h c hc
    cases hfound : r.byName? c.name with
    | none =>
        have := List.find?_eq_none.mp hfound c hc
        simp at this
    | some d =>
        have hname : d.name = c.name := by simpa using List.find?_some hfound
        rw [h d (List.mem_of_find?_eq_some hfound) c hc hname]
  · intro h c hc d hd hname
    have hsame := h c hc
    rw [hname, h d hd] at hsame
    exact (Option.some.inj hsame).symm

end Registry

/-! ## The results of a run -/

namespace CommandLine.Results

theorem put_of_notMem {name : String} (t : Option Tensor) : ∀ {rs : Results}, name ∉ rs.map Prod.fst →
    rs.put name t = rs ++ [(name, t)]
  | [], _ => rfl
  | (other, u) :: rs, h => by
    rw [List.map_cons, List.mem_cons, not_or] at h
    rw [put, if_neg (Ne.symm h.1), put_of_notMem t h.2]
    rfl

theorem mem_names_put {name other : String} {t : Option Tensor} : ∀ {rs : Results},
    other ∈ (rs.put name t).map Prod.fst → other = name ∨ other ∈ rs.map Prod.fst
  | [], h => .inl (List.mem_singleton.mp h)
  | (first, u) :: rs, h => by
    rw [put] at h
    split at h
    · rename_i he
      rcases List.mem_cons.mp h with h | h
      · exact .inl h
      · exact .inr (List.mem_cons_of_mem _ h)
    · rcases List.mem_cons.mp h with h | h
      · exact .inr (h ▸ List.mem_cons_self)
      · exact (mem_names_put h).imp_right (List.mem_cons_of_mem _)

theorem nodup_put (name : String) (t : Option Tensor) : ∀ {rs : Results}, (rs.map Prod.fst).Nodup →
    ((rs.put name t).map Prod.fst).Nodup
  | [], _ => List.nodup_singleton name
  | (first, u) :: rs, h => by
    rw [List.map_cons, List.nodup_cons] at h
    rw [put]
    split
    · rename_i he
      exact List.nodup_cons.mpr ⟨he ▸ h.1, h.2⟩
    · rename_i hne
      refine List.nodup_cons.mpr ⟨fun hmem => ?_, nodup_put name t h.2⟩
      exact (mem_names_put hmem).elim hne h.1

/-- **The results have an entry for every coefficient exactly if no two have one name.** -/
theorem ofSession_iff (s : Session) : CoefficientKey.AreDistinguished s.registry.keys ↔
    ofSession s = s.registry.coefficients.map fun c => (c.name, c.tensor) := by
  rw [CoefficientKey.areDistinguished_iff, Registry.map_name]
  constructor
  · exact foldl_put (fun _ _ t => put_of_notMem t) (w := [])
  · intro h
    have hn : ((ofSession s).map Prod.fst).Nodup :=
      nodup_foldl_put (fun _ name t => nodup_put name t) Coefficient.name Coefficient.tensor _ List.nodup_nil
    rw [h, List.map_map] at hn
    exact hn

end CommandLine.Results

/-! ## Sessions -/

namespace Session

/-- **Names are enough exactly for keys that are distinguished**: for telling coefficients apart, for finding
them, for the results of a session, and for reading the tags of an equation. -/
theorem names_distinguish (s : Session) :
    (CoefficientKey.AreDistinguished s.registry.keys ↔
      ∀ c ∈ s.registry.coefficients, ∀ d ∈ s.registry.coefficients, c.name = d.name → c = d) ∧
    (CoefficientKey.AreDistinguished s.registry.keys ↔
      ∀ c ∈ s.registry.coefficients, s.registry.byName? c.name = some c) ∧
    (CoefficientKey.AreDistinguished s.registry.keys ↔
      CommandLine.Results.ofSession s = s.registry.coefficients.map fun c => (c.name, c.tensor)) ∧
    ∀ e : Equation, CoefficientKey.AreDistinguished e.coefficients ↔
      ∀ r : Registry, ∀ tag ∈ e.reading.tags,
        (r.bindings e).lookup tag.key.name = some (.stored (r.tensor? tag.key)) :=
  ⟨Registry.areDistinguished_iff, Registry.byName?_iff, CommandLine.Results.ofSession_iff s, Equation.reads_iff⟩

/-- The difference of two coefficients whose texts differ in a blank and an underscore. -/
def blankAndUnderscore : String := "#<a b:0:0:0:0:\x7b\x7d> - #<a_b:0:0:0:0:\x7b\x7d>"

/-- **Two coefficients with one name**: a search finds only the first of them, the results have one entry, and
an equation on both has one tensor for its two tags. -/
theorem names_clash :
    let s := (start .planar).run [.complete ⟨⟨0, 0, 0, 0⟩, "a b"⟩ (.scalar (.symbol "x")),
      .complete ⟨⟨0, 0, 0, 0⟩, "a_b"⟩ (.scalar (.symbol "y"))]
    s.registry.keys.map CoefficientKey.name = ["Coefficient_a_b_0_0_0_0", "Coefficient_a_b_0_0_0_0"] ∧
    (s.registry.byName? "Coefficient_a_b_0_0_0_0").map Coefficient.key = some ⟨⟨0, 0, 0, 0⟩, "a b"⟩ ∧
    (CommandLine.Results.ofSession s).length = 1 ∧
    (parseEquation blankAndUnderscore).toOption.map (fun reading =>
      let e : Equation := { source := blankAndUnderscore, reading := reading }
      (e.coefficients, (s.registry.bindings e).map Prod.fst)) =
        some ([⟨⟨0, 0, 0, 0⟩, "a b"⟩, ⟨⟨0, 0, 0, 0⟩, "a_b"⟩], ["Coefficient_a_b_0_0_0_0"]) := by
  decide +kernel

end Session

end TensorEquations
