import TensorEquations.Proofs.Equation.Advance
import TensorEquations.Proofs.Expression.Support

/-!
# Equations and coefficients that have nothing in common

The substitution of an equation replaces only symbols of its own coefficients. A coefficient whose tensor has
none of them stays as it is.

* `Coefficient.IsConfined` — an expanded tensor in given symbols, and a queue of substitutions that keep it so.
* `Coefficient.Takes.isConfined`, `Coefficient.IsConfined.complete`, `Coefficient.IsConfined.unlock` — what keeps
  a coefficient confined.
* `Coefficient.Takes.tensor_eq` — **a substitution in other symbols changes nothing**, now or later.
* `Registry.IsPolynomial.solve_isOver` — the substitution that a solve hands on.
* `Registry.IsSeparated` — the coefficients of a group are confined to some symbols and all others to the rest.
* `Registry.IsSeparated.solve` — **an equation on one side keeps this.**
* `Registry.IsSeparated.tensor?_solve` — **it leaves the coefficients of the other side alone.**
-/

namespace TensorEquations

variable {A B : Set String}

/-! ## Coefficients in given symbols -/

/-- The tensor is expanded and in given symbols, and the queue has only substitutions for these symbols or for
other ones. -/
structure Coefficient.IsConfined (B : Set String) (c : Coefficient) : Prop where
  tensor : ∀ t, c.tensor = some t → t.IsOver B ∧ t.expand = t
  queue : ∀ f ∈ c.queue, ∃ s : Substitution, f = s.update ∧ (s.IsOver B ∨ s.IsOver Bᶜ)

namespace Coefficient

variable {c c' : Coefficient} {s : Substitution} {t : Tensor}

/-- What a substitution does to a tensor on either side. -/
theorem update_isOver {v : Tensor} (hs : s.IsOver B ∨ s.IsOver Bᶜ) (ht : t.IsOver B)
    (hexpanded : t.expand = t) (hv : s.update t = .ok v) : v.IsOver B ∧ v.expand = v := by
  rcases hs with hs | hs
  · exact hs.update Set.Subset.rfl ht hv
  · rw [hs.update_eq (by rwa [compl_compl]) hexpanded] at hv
    cases hv
    exact ⟨ht, hexpanded⟩

theorem runQueue_isOver : ∀ {fs : List Revision} {t : Tensor},
    (∀ f ∈ fs, ∃ s : Substitution, f = s.update ∧ (s.IsOver B ∨ s.IsOver Bᶜ)) → t.IsOver B → t.expand = t →
    (runQueue t fs).1.IsOver B ∧ (runQueue t fs).1.expand = (runQueue t fs).1
  | [], _, _, ht, hexpanded => ⟨ht, hexpanded⟩
  | f :: fs, t, h, ht, hexpanded => by
    rw [List.forall_mem_cons] at h
    obtain ⟨⟨s, rfl, hs⟩, hrest⟩ := h
    rw [runQueue]
    cases hv : s.update t with
    | ok v =>
        obtain ⟨hover, hv⟩ := update_isOver hs ht hexpanded hv
        exact runQueue_isOver hrest hover hv
    | error reason => exact runQueue_isOver hrest ht hexpanded

/-- **A coefficient in other symbols keeps its tensor**, now and when its queue has been run. -/
theorem Takes.tensor_eq (h : c.Takes s c') (hs : s.IsOver A) (hc : c.IsConfined Aᶜ) :
    c'.tensor = c.tensor ∧ c'.settle.tensor = c.settle.tensor := by
  cases h with
  | @revised t v _ _ ht hu =>
      obtain ⟨hover, hexpanded⟩ := hc.tensor t ht
      rw [hs.update_eq hover hexpanded] at hu
      have hsame : { c with tensor := some v } = c := by
        rw [← Except.ok.inj hu, ← ht]
      rw [hsame]
      exact ⟨rfl, rfl⟩
  | queued _ _ =>
      refine ⟨rfl, ?_⟩
      unfold settle
      cases ht : c.tensor with
      | none => rfl
      | some t =>
          obtain ⟨hover, hexpanded⟩ := hc.tensor t ht
          obtain ⟨hsettled, hexpanded⟩ := runQueue_isOver hc.queue hover hexpanded
          simp only [Option.map_some, runQueue_append, runQueue, hs.update_eq hsettled hexpanded]
  | ignored _ => exact ⟨rfl, rfl⟩

theorem Takes.isConfined (h : c.Takes s c') (hs : s.IsOver B ∨ s.IsOver Bᶜ) (hc : c.IsConfined B) :
    c'.IsConfined B := by
  cases h with
  | revised _ _ ht hu =>
      refine ⟨fun v hv => ?_, hc.queue⟩
      obtain rfl := Option.some.inj hv
      exact update_isOver hs (hc.tensor _ ht).1 (hc.tensor _ ht).2 hu
  | queued _ _ =>
      refine ⟨hc.tensor, fun f hf => ?_⟩
      rcases List.mem_append.mp hf with hf | hf
      · exact hc.queue f hf
      · exact ⟨s, List.mem_singleton.mp hf, hs⟩
  | ignored _ => exact hc

namespace IsConfined

theorem open_coefficient (k : CoefficientKey) : ({ key := k } : Coefficient).IsConfined B :=
  ⟨fun _ h => (nomatch h), List.forall_mem_nil _⟩

theorem lock (h : c.IsConfined B) : c.lock.IsConfined B := ⟨h.tensor, h.queue⟩

theorem observe (h : c.IsConfined B) (o : Observer) : (c.observe o).IsConfined B := ⟨h.tensor, h.queue⟩

theorem unlock (h : c.IsConfined B) : c.unlock.1.IsConfined B := by
  unfold Coefficient.unlock release
  split
  · cases ht : c.tensor with
    | none => exact ⟨fun _ h => (nomatch h), List.forall_mem_nil _⟩
    | some t =>
        refine ⟨fun v hv => ?_, List.forall_mem_nil _⟩
        obtain rfl := Option.some.inj hv
        exact runQueue_isOver h.queue (h.tensor t ht).1 (h.tensor t ht).2
  · exact h

theorem complete (h : c.IsConfined B) (ht : t.IsOver B) (hexpanded : t.expand = t)
    (hlabels : t.labels = c.labels) (hc : c.complete t = .ok c') : c'.IsConfined B := by
  have hstored := complete_tensor hc hlabels
  obtain ⟨-, -, t', -, rfl⟩ := complete_ok hc
  refine ⟨fun v hv => ?_, h.queue⟩
  obtain rfl := Option.some.inj (hstored.symm.trans hv)
  exact ⟨ht, hexpanded⟩

end IsConfined

end Coefficient

/-! ## Substitutions of equations -/

namespace Registry

variable {r r' : Registry} {e : Equation} {s : Substitution} {k : CoefficientKey} {c : Coefficient}

/-- The program of an equation has values in the symbols of its coefficients. -/
theorem program_isOver (hA : ∀ k ∈ e.coefficients, ∀ t, r.tensor? k = some t → t.IsOver A)
    (hs : ((Interpreter.start (r.bindings e)).evaluate e.reading.expression).1 = .ok (.substitution s)) :
    s.IsOver A := by
  have hbindings : ∀ b ∈ r.bindings e, b.2.Over A := by
    rw [bindings_eq, Equation.values]
    generalize e.coefficients = ks at hA
    suffices hfold : ∀ vs : Bindings, (∀ b ∈ vs, b.2.Over A) →
        ∀ b ∈ ks.foldl (fun vs k => vs.assign k.name (.stored (r.tensor? k))) vs, b.2.Over A from
      hfold [] (List.forall_mem_nil _)
    induction ks with
    | nil => exact fun _ h => h
    | cons k ks ih =>
        rw [List.forall_mem_cons] at hA
        refine fun vs h => ih hA.2 _ (Bindings.forall_assign ?_ h)
        cases ht : r.tensor? k with
        | none => exact ⟨.nothing, fun s hs => (nomatch hs)⟩
        | some t => exact Value.over_tensor.mpr (hA.1 t ht)
  exact (Interpreter.evaluate_over hbindings hs).substitution s rfl

/-- **A solve hands on a substitution that replaces symbols of the equation's own coefficients only**, or it
changes nothing. -/
theorem IsPolynomial.solve_isOver (h : r.IsPolynomial) (hfree : e.isBlocked r = false) (hgiven : e.given = none)
    (hA : ∀ k ∈ e.coefficients, ∀ t, r.tensor? k = some t → t.IsOver A) : (r.solve e).1 = r ∨
      ∃ s : Substitution, s.IsOver A ∧ Pointwise (Coefficient.Takes s) r (r.solve e).1 := by
  rcases h.solve hfree hgiven with ⟨_, -, hsame⟩ | ⟨s, -, -, -, htakes, hprogram⟩
  · exact .inl hsame
  · exact .inr ⟨s, program_isOver hA hprogram, htakes⟩

end Registry

/-! ## Two sides -/

/-- All coefficients of an equation are in a group, or none of them is. -/
def Equation.IsOneSided (G : Set CoefficientKey) (e : Equation) : Prop :=
  (∀ k ∈ e.coefficients, k ∈ G) ∨ ∀ k ∈ e.coefficients, k ∉ G

theorem Equation.IsOneSided.congr {G : Set CoefficientKey} {e e' : Equation} (h : e.IsOneSided G)
    (hreading : e'.reading = e.reading) : e'.IsOneSided G := by
  rw [IsOneSided, coefficients_congr hreading]
  exact h

/-- The given symbols for the coefficients of a group, and all other symbols for the other coefficients. -/
def CoefficientKey.side (A : Set String) (G : Set CoefficientKey) (k : CoefficientKey) : Set String :=
  {n | n ∈ A ↔ k ∈ G}

namespace CoefficientKey

variable {G : Set CoefficientKey} {k : CoefficientKey}

theorem side_of_mem (h : k ∈ G) : side A G k = A := Set.ext fun _ => iff_true_right h

theorem side_of_notMem (h : k ∉ G) : side A G k = Aᶜ := Set.ext fun _ => iff_false_right h

theorem side_cases : side A G k = A ∨ side A G k = Aᶜ := by
  by_cases h : k ∈ G
  · exact .inl (side_of_mem h)
  · exact .inr (side_of_notMem h)

end CoefficientKey

namespace Registry

variable {G : Set CoefficientKey} {r : Registry} {e : Equation} {k : CoefficientKey}

open CoefficientKey (side side_of_mem side_of_notMem side_cases)

/-- The coefficients of a group are confined to given symbols, and all others to the other symbols. -/
def IsSeparated (A : Set String) (G : Set CoefficientKey) (r : Registry) : Prop :=
  ∀ c ∈ r.coefficients, c.IsConfined (side A G c.key)

namespace IsSeparated

theorem find? (h : r.IsSeparated A G) {c : Coefficient} (hc : r.find? k = some c) :
    c.IsConfined (side A G k) := key_of_find? hc ▸ h c (mem_of_find? hc)

/-- The tensors of an equation on one side. -/
theorem isOver (h : r.IsSeparated A G) (hB : ∀ k ∈ e.coefficients, side A G k = B) :
    ∀ k ∈ e.coefficients, ∀ t, r.tensor? k = some t → t.IsOver B := by
  intro k hk t ht
  obtain ⟨c, hc, ht⟩ := Option.bind_eq_some_iff.mp ht
  exact hB k hk ▸ ((h.find? hc).tensor t ht).1

/-- **An equation on one side keeps the sides apart.** -/
theorem solve (h : r.IsSeparated A G) (hr : r.IsPolynomial) (hfree : e.isBlocked r = false)
    (hgiven : e.given = none) (hside : e.IsOneSided G) : (r.solve e).1.IsSeparated A G := by
  obtain ⟨B, hB, hsides⟩ : ∃ B, (B = A ∨ B = Aᶜ) ∧ ∀ k ∈ e.coefficients, side A G k = B := by
    rcases hside with hG | hG
    · exact ⟨A, .inl rfl, fun k hk => side_of_mem (hG k hk)⟩
    · exact ⟨Aᶜ, .inr rfl, fun k hk => side_of_notMem (hG k hk)⟩
  rcases hr.solve_isOver hfree hgiven (h.isOver hsides) with hsame | ⟨s, hs, htakes⟩
  · rw [hsame]
    exact h
  · -- Whichever side the substitution is on, a coefficient is on that side or on the other one.
    have heither : ∀ k : CoefficientKey, s.IsOver (side A G k) ∨ s.IsOver (side A G k)ᶜ := by
      intro k
      rcases side_cases (A := A) (G := G) (k := k) with hk | hk <;> rcases hB with rfl | rfl <;> rw [hk]
      · exact .inl hs
      · exact .inr hs
      · rw [compl_compl]
        exact .inr hs
      · exact .inl hs
    have hconfined : ∀ c c' : Coefficient, c'.key = c.key → c.Takes s c' →
        c.IsConfined (side A G c.key) → c'.IsConfined (side A G c'.key) := by
      intro c c' hkey htaken hc
      rw [hkey]
      exact htaken.isConfined (heither c.key) hc
    exact htakes.forall (P := fun c => c.IsConfined (side A G c.key)) h hconfined

/-- **An equation on one side leaves the coefficients of the other side alone**, now and when they are
released. -/
theorem tensor?_solve (h : r.IsSeparated A G) (hr : r.IsPolynomial) (hfree : e.isBlocked r = false)
    (hgiven : e.given = none) (hG : ∀ j ∈ e.coefficients, j ∈ G) (hk : k ∉ G) :
    (r.solve e).1.tensor? k = r.tensor? k ∧ (r.solve e).1.settled? k = r.settled? k := by
  have hover := h.isOver fun j hj => side_of_mem (A := A) (hG j hj)
  rcases hr.solve_isOver hfree hgiven hover with hsame | ⟨s, hs, htakes⟩
  · rw [hsame]
    exact ⟨rfl, rfl⟩
  · unfold tensor? settled?
    cases hc : r.find? k with
    | none =>
        have hnone : (r.solve e).1.find? k = none :=
          find?_eq_none.mpr (htakes.keys_eq ▸ find?_eq_none.mp hc)
        rw [hnone]
        exact ⟨rfl, rfl⟩
    | some c =>
        obtain ⟨c', hc', htaken⟩ := htakes.find? hc
        rw [hc']
        exact htaken.tensor_eq hs (side_of_notMem hk ▸ h.find? hc)

end IsSeparated

end Registry

end TensorEquations
