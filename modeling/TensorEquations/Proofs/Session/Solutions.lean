import TensorEquations.Proofs.Session.Atomicity
import TensorEquations.Proofs.Session.Order
import TensorEquations.Proofs.Session.Persistence

/-!
# The solutions of an equation

What the tensors can be after a solve is what they could be before it wherever the body of the equation vanishes.

* `Registry.finished?` — the tensor of a finished coefficient.
* `Registry.solve_updates` — a solve of free coefficients replaces every finished tensor by its update.
* `Registry.solve_solvedForm` — the substitution of a solve is a solved form of the components of the body.
* `Registry.range_family_solve` — **so the values of the finished tensors after it are those at the zeros of the
  body before it.**
* `Session.solve_keeps_solutions` — **a solve neither adds nor loses a solution.**
-/

namespace TensorEquations

open Scalar (Maps)

theorem rel_mono {α β : Type} {R S : α → β → Prop} (hRS : ∀ a b, R a b → S a b) {a? : Option α}
    {b? : Option β} (h : Option.Rel R a? b?) : Option.Rel S a? b? := by
  cases h with
  | none => exact .none
  | some h => exact .some (hRS _ _ h)

namespace Registry

variable {r : Registry} {k : CoefficientKey} {c : Coefficient} {e : Equation} {E : Expression} {s : Substitution}

/-! ## What a solve does to the finished tensors -/

/-- The tensor of a finished coefficient. -/
def finished? (r : Registry) (k : CoefficientKey) : Option Tensor :=
  (r.find? k).bind fun c => if c.isFinished then c.tensor else none

theorem finished?_of_find? (hc : r.find? k = some c) :
    r.finished? k = if c.isFinished then c.tensor else none := by
  unfold finished?
  rw [hc, Option.bind_some]

theorem finished?_of_none (hk : r.find? k = none) : r.finished? k = none := by
  unfold finished?
  rw [hk, Option.bind_none]

/-- An evaluation of the program of an equation comes first; then the substitution is carried out and the locks are
given back. -/
theorem solve_carryOut (hr : r.IsConsistent) (hfree : e.isBlocked r = false) (hgiven : e.given = none)
    (hs : (r.solve e).2 = .ok s) : (r.evaluate e).2 = .ok s ∧
      ∃ r', (r.lockAll e.acquisition).carryOut s e.acquisition = .ok r' ∧
        (r.solve e).1 = r'.modifyAll e.acquisition Coefficient.free := by
  have hnone : ∀ g, e.given = some g → g.handed = [] := fun g hg => (nomatch hgiven.symm.trans hg)
  have hlocked : ((r.lockAll e.acquisition).evaluate e).2 = (r.evaluate e).2 := by
    unfold evaluate
    rw [hgiven]
    simp only [bindings_lockAll]
    split <;> rfl
  have heq := solve_eq (holdsOwn hr hfree (queuesNothing hnone))
  rw [hlocked, evaluate_quiet hnone] at heq
  split at heq
  · rw [heq] at hs
    cases hs
  · rename_i s' hs'
    split at heq
    · rw [heq] at hs
      cases hs
    · rename_i r' hcarry
      rw [heq] at hs ⊢
      obtain rfl := Except.ok.inj hs
      exact ⟨hs', r', hcarry, rfl⟩

/-- **A solve of free coefficients replaces every finished tensor by its update**, and finishes no coefficient. -/
theorem solve_updates (hr : r.IsConsistent) (hfree : ∀ k, r.isLocked k = false) (hgiven : e.given = none)
    (hs : (r.solve e).2 = .ok s) : (∀ k, r.find? k = none → (r.solve e).1.find? k = none) ∧
      ∀ k c, r.find? k = some c → ∃ c', (r.solve e).1.find? k = some c' ∧ c'.isFinished = c.isFinished ∧
        (c.isFinished = true → ∃ t t', c.tensor = some t ∧ s.update t = .ok t' ∧ c'.tensor = some t') := by
  have hblocked : e.isBlocked r = false := List.any_eq_false.mpr fun k _ => by simp [hfree k]
  obtain ⟨-, r', hcarry, heq⟩ := solve_carryOut hr hblocked hgiven hs
  obtain ⟨hkeys, hown, hothers⟩ := carryOut_ok e.nodup_acquisition hcarry
  have hfind : ∀ k, (r.solve e).1.find? k =
      if k ∈ e.acquisition then (r'.find? k).map Coefficient.free else r'.find? k := by
    intro k
    rw [heq]
    exact find?_modifyAll Coefficient.free_key (fun _ => rfl) e.acquisition r'
  refine ⟨fun k hk => ?_, fun k c hc => ?_⟩
  · rw [find?_eq_none] at hk ⊢
    rwa [heq, keys_modifyAll, hkeys, keys_lockAll]
  · rw [hfind]
    by_cases hk : k ∈ e.acquisition
    · obtain ⟨d, t, t', hd, ht, hu, hd'⟩ := hown k hk
      rw [find?_lockAll, if_pos hk, hc] at hd
      obtain rfl := Option.some.inj hd
      rw [if_pos hk, hd']
      exact ⟨_, rfl, rfl, fun _ => ⟨t, t', ht, hu, rfl⟩⟩
    · have hlocked : (r.lockAll e.acquisition).find? k = some c := by
        rw [find?_lockAll, if_neg hk, hc]
      obtain ⟨c', hc', htakes⟩ := hothers k hk c hlocked
      rw [if_neg hk]
      refine ⟨c', hc', htakes.frame.2.1, fun hf => ?_⟩
      have hl : c.isLocked = false := (isLocked_of_find? hc).symm.trans (hfree k)
      cases htakes with
      | @revised t t' _ _ ht hu => exact ⟨t, t', ht, hu, rfl⟩
      | queued _ hheld => exact absurd (hl.symm.trans hheld) (nomatch ·)
      | ignored hno => exact absurd (hno.symm.trans hf) (nomatch ·)

/-- **The substitution of a solve is a solved form of the components of the body.** -/
theorem solve_solvedForm (hpolynomial : ∀ k t, r.tensor? k = some t → t.IsPolynomial) (hgiven : e.given = none)
    (hbody : e.body? = some E) (hs : (r.evaluate e).2 = .ok s) :
    ∃ q pairs, E.evaluate (r.bindings e) = .ok (.quantity q) ∧ s = .ofSolved pairs ∧
      SolvedForm ((Value.quantity q).components.map Scalar.poly) pairs := by
  have hprogram := evaluate_eq_ok hgiven hs
  rw [Equation.evaluate_program hbody] at hprogram
  obtain ⟨v, hv, hsolved⟩ := bind_eq_ok hprogram
  have hvpolynomial := E.evaluate_isPolynomial (bindings_isPolynomial hpolynomial e) hv
  obtain ⟨⟨q, rfl⟩, pairs, heq, hform⟩ := Builtin.solveHomogeneous_ok hvpolynomial hsolved
  cases heq
  exact ⟨q, pairs, hv, rfl, hform⟩

/-- The finished tensors after a solve are images of those before it. -/
theorem finished?_solve (hr : r.IsConsistent) (hfree : ∀ k, r.isLocked k = false) (hgiven : e.given = none)
    (hpolynomial : ∀ k t, r.tensor? k = some t → t.IsPolynomial) (hu : s.IsPolynomial)
    (hs : (r.solve e).2 = .ok s) (k : CoefficientKey) :
    Option.Rel (Tensor.Related (Maps s.hom)) (r.finished? k) ((r.solve e).1.finished? k) := by
  obtain ⟨hnone, hsome⟩ := solve_updates hr hfree hgiven hs
  cases hc : r.find? k with
  | none =>
      rw [finished?_of_none hc, finished?_of_none (hnone k hc)]
      exact .none
  | some c =>
      obtain ⟨c', hc', hf, hupdate⟩ := hsome k c hc
      rw [finished?_of_find? hc, finished?_of_find? hc', hf]
      cases hfinished : c.isFinished with
      | false => exact .none
      | true =>
          obtain ⟨t, t', ht, hupdated, ht'⟩ := hupdate hfinished
          have htp := hpolynomial k t ((tensor?_of_find? hc).trans ht)
          obtain ⟨v, hv, himage⟩ := htp.update hu
          obtain rfl := Except.ok.inj (hv.symm.trans hupdated)
          rw [ht, ht']
          exact .some himage

theorem family_of_images {φ : Poly →ₐ[ℚ] Poly} {T T' : CoefficientKey → Option Tensor}
    (h : ∀ k, Option.Rel (Tensor.Related (Maps φ)) (T k) (T' k)) (ρ : String → ℚ) :
    family T' ρ = family T (pullback φ ρ) := by
  funext k
  have hk := h k
  unfold family
  generalize T k = t?, T' k = u? at hk ⊢
  cases hk with
  | none => rfl
  | some himage => rw [Option.map_some, Option.map_some, himage.values_eq ρ]

/-- **The values of the finished tensors after a solve are those before it at the zeros of the body.** The values
after it at an assignment are those before it at the values of the images, where the body vanishes; and where the
body vanishes the images have the values of the symbols themselves. -/
theorem range_family_solve {pairs : List (String × Scalar)} {q : Quantity}
    {T T' : CoefficientKey → Option Tensor}
    (hform : SolvedForm ((Value.quantity q).components.map Scalar.poly) pairs)
    (h : ∀ k, Option.Rel (Tensor.Related (Maps (Substitution.ofSolved pairs).hom)) (T k) (T' k)) :
    Set.range (family T') = family T '' {ρ | (Value.quantity q).VanishesAt ρ} := by
  ext values
  constructor
  · rintro ⟨ρ, rfl⟩
    exact ⟨_, hform.vanishesAt ⟨q, rfl⟩ ρ, (family_of_images h ρ).symm⟩
  · rintro ⟨ρ, hρ, rfl⟩
    refine ⟨ρ, ?_⟩
    rw [family_of_images h, hform.pullback_eq hρ]

end Registry

/-! ## Solves in a session -/

namespace Session

variable {t : Session} {cs : List Command} {place : Nat}

/-- **A solve neither adds nor loses a solution.** Whatever has been asked of a session, as long as no coefficient
is held and all tensors have polynomials as components: if an equation that waits becomes solved, then its body had
a value before, and the families of values that the finished tensors take after it, as rationals are assigned to
all symbols, are exactly those that they took before it at the assignments at which all components of that value
are zero. The shapes of the tensors stay. -/
theorem solve_keeps_solutions {configuration : Configuration} {e : Equation} {E : Expression} {u : Substitution}
    (hrun : Runs (start configuration) cs t) (hfree : ∀ k, t.registry.isLocked k = false)
    (hpolynomial : ∀ k v, t.registry.tensor? k = some v → v.IsPolynomial)
    (he : t.equations[place]? = some e) (hwaiting : e.state.isWaiting = true) (hgiven : e.given = none)
    (hbody : e.body? = some E)
    (hsolved : (t.solve place).1.equations[place]? = some { e with state := .solved u }) :
    ∃ q, E.evaluate (t.registry.bindings e) = .ok (.quantity q) ∧
      Set.range (family (t.solve place).1.registry.finished?) =
        family t.registry.finished? '' {ρ | (Value.quantity q).VanishesAt ρ} ∧
      ∀ k, Option.Rel (fun v v' => v'.labels = v.labels ∧ v'.dimension = v.dimension)
        (t.registry.finished? k) ((t.solve place).1.registry.finished? k) := by
  have hconsistent := hrun.isConsistent
  have hblocked : e.isBlocked t.registry = false := List.any_eq_false.mpr fun k _ => by simp [hfree k]
  obtain ⟨hlt, -⟩ := List.getElem?_eq_some_iff.mp he
  rcases solve_waiting he hwaiting with ⟨u', hu', events, heq⟩ | ⟨cause, error, -, events, heq⟩
  · rw [heq]
    obtain ⟨hevaluate, -⟩ := Registry.solve_carryOut hconsistent hblocked hgiven hu'
    obtain ⟨q, pairs, hq, rfl, hform⟩ := Registry.solve_solvedForm hpolynomial hgiven hbody hevaluate
    have himages := Registry.finished?_solve hconsistent hfree hgiven hpolynomial hform.ofSolved_isPolynomial hu'
    refine ⟨q, hq, Registry.range_family_solve hform himages, fun k => ?_⟩
    exact rel_mono (fun _ _ himage => ⟨himage.labels, himage.dimension⟩) (himages k)
  · rw [heq, List.getElem?_set_self hlt] at hsolved
    cases hsolved

/-- An equation for one of two scalar coefficients that have the same symbol. -/
theorem solve_keeps_solutions_shared : ∃ cs t e E u q, Runs (start .planar) cs t ∧
    t.equations[0]? = some e ∧ e.body? = some E ∧
    (t.solve 0).1.equations[0]? = some { e with state := .solved u } ∧
    E.evaluate (t.registry.bindings e) = .ok (.quantity q) ∧
    Set.range (family (t.solve 0).1.registry.finished?) =
      family t.registry.finished? '' {ρ | (Value.quantity q).VanishesAt ρ} := by
  obtain ⟨cs, hcs⟩ : ∃ cs : List Command, cs = [.complete ⟨⟨0, 0, 0, 0⟩, "a"⟩ (.scalar (.symbol "u")),
    .complete ⟨⟨0, 0, 0, 0⟩, "b"⟩ (.scalar (.symbol "u")), .addEquation "#<a:0:0:0:0:\x7b\x7d>-3"] := ⟨_, rfl⟩
  obtain ⟨t, ht⟩ : ∃ t, t = cs.foldl issue (start .planar) := ⟨_, rfl⟩
  have hrun : Runs (start .planar) cs t := ht ▸ Runs.start.issueAll cs
  have hsymbol : (Tensor.scalar (.symbol "u")).IsPolynomial :=
    (Tensor.related_same (P := Scalar.IsPolynomial)).mp
      (Tensor.scalar_related ⟨rfl, (Scalar.symbol_denotes "u").isPolynomial⟩)
  have hplain : ∀ c ∈ cs, c.IsPlain := by
    rw [hcs]
    simp [Command.IsPlain, hsymbol]
  have hchecked : (t.registry.coefficients.all fun c => !c.isLocked) = true ∧
      (t.equations[0]?.any fun e => e.state.isWaiting && e.given.isNone && e.body?.isSome) = true ∧
      ((t.solve 0).1.equations[0]?.any fun e => e.state.isSolved) = true := by
    rw [ht, hcs]
    decide +kernel
  obtain ⟨hfree, hequation, hsolved⟩ := hchecked
  obtain ⟨e, he, h⟩ := (Option.any_eq_true _ _).mp hequation
  simp only [Bool.and_eq_true, Option.isNone_iff_eq_none, Option.isSome_iff_exists] at h
  obtain ⟨⟨hwaiting, hgiven⟩, E, hbody⟩ := h
  have hlocks : ∀ k, t.registry.isLocked k = false := by
    intro k
    unfold Registry.isLocked
    cases hc : t.registry.find? k with
    | none => rfl
    | some c => simpa using List.all_eq_true.mp hfree c (Registry.mem_of_find? hc)
  have hpolynomial : ∀ k v, t.registry.tensor? k = some v → v.IsPolynomial := by
    intro k v hv
    obtain ⟨c, hc, hv⟩ := Option.bind_eq_some_iff.mp hv
    exact (Registry.isPolynomial_iff.mp (hrun.persists hplain).registry k c hc).polynomials v hv
  obtain ⟨hlt, -⟩ := List.getElem?_eq_some_iff.mp he
  obtain ⟨u, hu⟩ : ∃ u, (t.solve 0).1.equations[0]? = some { e with state := .solved u } := by
    rcases solve_waiting he hwaiting with ⟨u, -, _, heq⟩ | ⟨_, _, -, _, heq⟩
    · exact ⟨u, by rw [heq, List.getElem?_set_self hlt]⟩
    · rw [heq, List.getElem?_set_self hlt] at hsolved
      cases hsolved
  obtain ⟨q, hq, hrange, -⟩ :=
    solve_keeps_solutions hrun hlocks hpolynomial he hwaiting hgiven hbody hu
  exact ⟨cs, t, e, E, u, q, hrun, he, hbody, hu, hq, hrange⟩

end Session

end TensorEquations
