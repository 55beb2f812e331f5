import TensorEquations.Proofs.Equation.Elimination
import TensorEquations.Proofs.Session.Lifecycle
import TensorEquations.Proofs.Session.Persistence

/-!
# Eliminated symbols in a session

* `Registry.Origin` — where a coefficient comes from in a step that solves nothing.
* `Session.Effect.origin`, `Session.issue_origin` — every such step keeps the settled tensors and at most completes
  coefficients.
* `Session.RunsWithout` — a run that completes no coefficient with a tensor in which given symbols occur.
* `Session.Step.avoids`, `Session.RunsWithout.avoids` — **symbols that occur nowhere do not come back in such a run.**
* `Session.eliminated_stays_eliminated` — **nor do those on the left sides of a solved equation.**
-/

namespace TensorEquations

variable {X : Set String}

theorem EquationState.eq_solved {state : EquationState} {u : Substitution} (h : state.substitution? = some u) :
    state = .solved u := by
  cases state with
  | solved v => exact congrArg EquationState.solved (Option.some.inj h)
  | _ => cases h

/-! ## Where coefficients come from -/

/-- Releasing a coefficient leaves its settled tensor. -/
theorem Coefficient.settle_unlock (c : Coefficient) : c.unlock.1.settle.tensor = c.settle.tensor := by
  unfold unlock release
  split
  · unfold settle
    cases c.tensor <;> rfl
  · rfl

/-- A plain command leaves the settled tensor of a coefficient as it is, unless it completes it. -/
theorem Command.Changes.settle {c : Command} {k : CoefficientKey} {d d' : Coefficient} (h : c.Changes k d d')
    (hc : c.IsPlain) : d'.settle.tensor = d.settle.tensor := by
  cases h with
  | setTensor | applyOrDefer => exact hc.elim
  | lock | observe => rfl
  | unlock => exact d.settle_unlock

namespace Registry

variable {r : Registry} {d : Coefficient} {k : CoefficientKey}

/-- A coefficient has been there with the same settled tensor, or it is new, or it has just been completed. -/
inductive Origin (r : Registry) (d : Coefficient) : Prop
  | kept {c : Coefficient} (found : r.find? d.key = some c) (settled : d.settle.tensor = c.settle.tensor)
  | made (absent : r.find? d.key = none) (tensor : d.tensor = none)
  | completed (unfinished : r.isFinished d.key = false) (finished : d.isFinished = true) (queue : d.queue = [])

/-- A coefficient of a registry with one more key. -/
theorem Origin.of_register (h : (r.register k).Origin d) : r.Origin d := by
  have hfind := find?_register (r := r) (k := k) (j := d.key)
  cases hr : r.find? d.key with
  | some c =>
      rw [hr] at hfind
      cases h with
      | kept found settled =>
          obtain rfl := Option.some.inj (found.symm.trans hfind)
          exact .kept hr settled
      | made absent _ => exact nomatch absent.symm.trans hfind
      | completed unfinished finished queue =>
          rw [isFinished_of_find? hfind] at unfinished
          exact .completed ((isFinished_of_find? hr).trans unfinished) finished queue
  | none =>
      have hunfinished : r.isFinished d.key = false := by
        unfold isFinished
        rw [hr]
        rfl
      cases h with
      | kept found settled =>
          rw [hr, Option.none_or] at hfind
          rw [found] at hfind
          split at hfind
          · obtain rfl := Option.some.inj hfind
            exact .made hr (Option.map_eq_none_iff.mp settled)
          · cases hfind
      | made _ tensor => exact .made hr tensor
      | completed _ finished queue => exact .completed hunfinished finished queue

theorem observeAll_origin (o : Observer) {ks : List CoefficientKey} (hn : ks.Nodup) :
    ∀ d ∈ (r.observeAll o ks).coefficients, r.Origin d := by
  intro d hd
  have hfound := find?_key hd
  rw [find?_observeAll hn] at hfound
  split at hfound
  · have hd' := Option.some.inj hfound
    cases hr : r.find? d.key with
    | none =>
        rw [hr] at hd'
        exact .made hr (hd' ▸ rfl)
    | some c =>
        rw [hr] at hd'
        exact .kept hr (hd' ▸ rfl)
  · exact .kept hfound rfl

end Registry

/-! ## Steps that solve nothing -/

namespace Session

variable {s s' t : Session} {cs ds : List Command} {c : Command} {place : Nat} {e e' : Equation} {u : Substitution}

/-- **A command that solves nothing keeps the settled tensors and at most completes a coefficient.** -/
theorem Effect.origin (heffect : s.Effect c s') (h : s.Persists) (hc : c.IsPlain)
    (hsolve : ∀ place, c ≠ .solve place) : ∀ d ∈ s'.registry.coefficients, s.registry.Origin d := by
  have hsame : ∀ d ∈ s.registry.coefficients, s.registry.Origin d :=
    fun d hd => .kept (Registry.find?_key hd) rfl
  cases heffect with
  | nothing | amends | closes => exact hsame
  | @adds e =>
      rw [(notify_submits _ _).registry]
      exact Registry.observeAll_origin _ e.nodup_coefficients
  | completes _ found free completed =>
      rw [(announce_submits _ _ _).registry]
      refine Registry.forall_put hsame ?_
      have hqueue := (Registry.isPolynomial_iff.mp h.registry _ _ found).queue free
      obtain ⟨hkey, hunfinished, hfinished, -⟩ := Coefficient.complete_frame completed
      obtain ⟨-, -, _, -, hstored⟩ := Coefficient.complete_ok completed
      refine .completed ?_ hfinished (hstored ▸ hqueue)
      rw [hkey, Registry.key_of_find? found, Registry.isFinished_of_find? found]
      exact hunfinished
  | changes changed found =>
      refine Registry.forall_put hsame (.kept ?_ (changed.settle hc))
      rw [changed.key]
      exact Registry.find?_key (Registry.mem_of_find? found)
  | notifies place =>
      rw [(notify_submits s place).registry]
      exact hsame
  | solves => exact absurd rfl (hsolve _)

theorem lookupAll_origin {d : Coefficient} (ms : List Mention) :
    (s.lookupAll ms).registry.Origin d → s.registry.Origin d :=
  lookupAll_induction (P := fun t => t.registry.Origin d → s.registry.Origin d)
    (fun _ _ ht hd => ht hd.of_register) id ms

theorem issue_origin (h : s.Persists) (hc : c.IsPlain) (hsolve : ∀ place, c ≠ .solve place) :
    ∀ d ∈ (s.issue c).registry.coefficients, s.registry.Origin d :=
  fun d hd => lookupAll_origin c.mentions ((issue_effect s c).origin (h.lookupAll c.mentions) hc hsolve d hd)

/-! ## Runs that complete nothing with given symbols -/

/-- Coefficients are completed with tensors in which given symbols do not occur. -/
def CompletesWithout (X : Set String) (s s' : Session) : Prop :=
  ∀ d ∈ s'.registry.coefficients, s.registry.isFinished d.key = false → d.isFinished = true →
    ∀ t, d.tensor = some t → t.Avoids X

/-- A run in which all coefficients are completed with tensors in which given symbols do not occur. -/
inductive RunsWithout (X : Set String) (s : Session) : List Command → Session → Prop
  | start : RunsWithout X s [] s
  | step {cs ds : List Command} {t t' : Session} (h : RunsWithout X s cs t) (hstep : t.Step ds t')
      (hcompletes : t.CompletesWithout X t') : RunsWithout X s (cs ++ ds) t'

theorem RunsWithout.runs (h : RunsWithout X s cs t) : Runs s cs t := by
  induction h with
  | start => exact .start
  | step _ hstep _ ih => exact ih.step hstep

theorem Persists.solve_avoids (h : s.Persists) (hfree : s.isHeldUp place = false) (havoids : s.registry.Avoids X) :
    (s.solve place).1.registry.Avoids X := by
  rcases solve_settles s place with ⟨heq, -⟩ | ⟨e, _, he, -, -, heq⟩ <;> rw [heq]
  · exact havoids
  · exact h.registry.solve_avoids (isBlocked_of_isHeldUp hfree he) (h.given e (List.mem_of_getElem? he)) havoids

theorem Step.persists (hstep : s.Step ds s') (h : s.Persists) (hplain : ∀ c ∈ ds, c.IsPlain) : s'.Persists := by
  cases hstep with
  | command c => exact h.issue (hplain c List.mem_cons_self)
  | turn _ hfree => exact h.turn hfree

/-- **Symbols that do not occur do not come in**, unless a coefficient is completed with them. -/
theorem Step.avoids (hstep : s.Step ds s') (h : s.Persists) (hplain : ∀ c ∈ ds, c.IsPlain)
    (hcompletes : s.CompletesWithout X s') (havoids : s.registry.Avoids X) : s'.registry.Avoids X := by
  cases hstep with
  | turn _ hfree => exact h.solve_avoids hfree havoids
  | command c =>
      by_cases hc : ∃ place, c = .solve place
      · obtain ⟨place, rfl⟩ := hc
        rw [issue_solve]
        rcases solveNow_cases s place with heq | ⟨hfree, heq⟩ <;> rw [heq]
        · exact havoids
        · exact h.solve_avoids hfree havoids
      · intro d hd
        cases issue_origin h (hplain c List.mem_cons_self) (not_exists.mp hc) d hd with
        | kept found settled => exact Coefficient.avoids_of_settle (havoids _ (Registry.mem_of_find? found)) settled
        | made _ tensor => exact Coefficient.avoids_of_none tensor
        | completed unfinished finished queue =>
            intro t ht
            rw [Coefficient.settle_of_empty queue] at ht
            exact hcompletes d hd unfinished finished t ht

/-- **Symbols that occur nowhere do not come back** in a run that completes nothing with them. -/
theorem RunsWithout.avoids (hrun : RunsWithout X s cs t) (h : s.Persists) (hplain : ∀ c ∈ cs, c.IsPlain)
    (havoids : s.registry.Avoids X) : t.Persists ∧ t.registry.Avoids X := by
  induction hrun with
  | start => exact ⟨h, havoids⟩
  | step _ hstep hcompletes ih =>
      rw [List.forall_mem_append] at hplain
      obtain ⟨hpersists, havoids'⟩ := ih hplain.1
      exact ⟨hstep.persists hpersists hplain.2, hstep.avoids hpersists hplain.2 hcompletes havoids'⟩

/-! ## Solved equations -/

/-- A solve by which an equation becomes solved is the solve of this equation. -/
theorem solve_solved {i : Nat} (he : s.equations[place]? = some e) (hne : e' ≠ e)
    (he' : (s.solve i).1.equations[place]? = some e') (hsolved : e'.state = .solved u) :
    i = place ∧ (s.registry.solve e).2 = .ok u ∧ (s.solve i).1.registry = (s.registry.solve e).1 := by
  have hother : s.equations[place]? ≠ some e' := fun hsame => hne (Option.some.inj (hsame.symm.trans he))
  rcases solve_cases s i with ⟨heq, -⟩ | ⟨d, hd, hwaits⟩
  · rw [heq] at he'
    exact absurd he' hother
  rcases solve_waiting hd hwaits with ⟨v, hv, _, heq⟩ | ⟨_, error, -, _, heq⟩ <;> rw [heq] at he' ⊢
  · rcases getElem?_set_cases he' with ⟨rfl, rfl⟩ | ⟨-, hold⟩
    · obtain rfl := Option.some.inj (hd.symm.trans he)
      obtain rfl := EquationState.solved.inj hsolved
      exact ⟨rfl, hv, rfl⟩
    · exact absurd hold hother
  · rcases getElem?_set_cases he' with ⟨-, rfl⟩ | ⟨-, hold⟩
    · cases hsolved
    · exact absurd hold hother

/-- The step at which an equation is solved carries out its substitution. -/
theorem Step.solved (hstep : s.Step ds s') (he : s.equations[place]? = some e) (hwaiting : e.state = .waiting)
    (he' : s'.equations[place]? = some e') (hsolved : e'.state = .solved u) :
    s.isHeldUp place = false ∧ (s.registry.solve e).2 = .ok u ∧ s'.registry = (s.registry.solve e).1 := by
  have hmoves : e'.state ≠ e.state := by
    rw [hsolved, hwaiting]
    exact fun h => (nomatch h)
  have hne : e' ≠ e := fun h => hmoves (h ▸ rfl)
  cases hstep with
  | turn _ hfree =>
      obtain ⟨rfl, hs, hregistry⟩ := solve_solved he hne he' hsolved
      exact ⟨hfree, hs, hregistry⟩
  | command c =>
      by_cases hc : ∃ i, c = .solve i
      · obtain ⟨i, rfl⟩ := hc
        rw [issue_solve] at he' ⊢
        rcases solveNow_cases s i with heq | ⟨hfree, heq⟩ <;> rw [heq] at he' ⊢
        · exact absurd (Option.some.inj (he'.symm.trans he)) hne
        · obtain ⟨rfl, hs, hregistry⟩ := solve_solved he hne he' hsolved
          exact ⟨hfree, hs, hregistry⟩
      · have hcontinues := (issue_effect s c).continues (not_exists.mp hc)
        obtain ⟨d, hd, -, hstate, -⟩ := hcontinues.kept place e ((lookupAll_frame s c.mentions).1 ▸ he)
        obtain rfl := Option.some.inj (hd.symm.trans he')
        exact absurd hstate hmoves

/-- **What a solved equation eliminates stays eliminated.** Let an equation whose body is an expression be solved at
some step of a run of plain commands. In no later state does a symbol on a left side of its substitution occur in the
tensor of a coefficient for which no substitution waits, unless it has come in by a later completion. -/
theorem eliminated_stays_eliminated {configuration : Configuration} {before after : List Command} {E : Expression}
    (hbefore : Runs (start configuration) before s) (hstep : s.Step ds s')
    (hafter : RunsWithout u.eliminated s' after t) (hplain : ∀ c ∈ before ++ ds ++ after, c.IsPlain)
    (he : s.equations[place]? = some e) (hwaiting : e.state = .waiting) (hbody : e.body? = some E)
    (he' : s'.equations[place]? = some e') (hsolved : e'.state = .solved u) :
    ∀ c ∈ t.registry.coefficients, c.queue = [] → ∀ T, c.tensor = some T → ∀ n ∈ u.eliminated, n ∉ T.symbols := by
  rw [List.forall_mem_append, List.forall_mem_append] at hplain
  have hpersists := hbefore.persists hplain.1.1
  obtain ⟨hfree, hs, hregistry⟩ := hstep.solved he hwaiting he' hsolved
  have heliminated : s'.registry.Avoids u.eliminated := by
    rw [hregistry]
    exact hpersists.registry.solve_eliminates (isBlocked_of_isHeldUp hfree he)
      (hpersists.given e (List.mem_of_getElem? he)) hbody hs
  obtain ⟨-, havoids⟩ := hafter.avoids (hstep.persists hpersists hplain.1.2) hplain.2 heliminated
  intro c hc hqueue T hT n hn hmem
  have hsettled : c.settle.tensor = some T := by rwa [Coefficient.settle_of_empty hqueue]
  exact havoids c hc T hsettled n hmem hn

/-- A step after which no other coefficients are finished completes nothing. -/
theorem completesWithout_of_all
    (h : (s'.registry.coefficients.all fun d => s.registry.isFinished d.key) = true) : s.CompletesWithout X s' :=
  fun d hd hunfinished => absurd (hunfinished.symm.trans (List.all_eq_true.mp h d hd)) (nomatch ·)

/-- Two coefficients have a symbol in common. The first equation eliminates it, and the second one rewrites what has
come in its place. -/
theorem eliminated_stays_eliminated_shared : ∃ cs s s' t u, Runs (start .planar) cs s ∧ s.Step [] s' ∧
    RunsWithout u.eliminated s' [] t ∧ (∃ e, s'.equations[0]? = some e ∧ e.state = .solved u) ∧
    (∃ e, t.equations[1]? = some e ∧ e.state.isSolved = true) ∧ "x" ∈ u.eliminated ∧
    ∃ c ∈ t.registry.coefficients, c.key.id = "b" ∧ ∃ T, c.tensor = some T ∧ "x" ∉ T.symbols := by
  obtain ⟨cs, hcs⟩ : ∃ cs : List Command, cs = [
    .complete ⟨⟨0, 0, 0, 0⟩, "a"⟩ (.scalar (.symbol "x" + .symbol "y")),
    .complete ⟨⟨0, 0, 0, 0⟩, "b"⟩ (.scalar (.symbol "x" + .symbol "z")),
    .addEquation "#<a:0:0:0:0:\x7b\x7d>", .addEquation "#<b:0:0:0:0:\x7b\x7d> - 1"] := ⟨_, rfl⟩
  obtain ⟨s, hs⟩ : ∃ s, s = cs.foldl issue (start .planar) := ⟨_, rfl⟩
  have hrun : Runs (start .planar) ([] ++ cs) s := hs ▸ Runs.start.issueAll cs
  have hplain : ∀ c ∈ [] ++ cs ++ [] ++ [], c.IsPlain := by
    rw [hcs]
    simp only [List.nil_append, List.append_nil, List.forall_mem_cons, Command.IsPlain, Tensor.IsPolynomial]
    exact ⟨by decide +kernel, by decide +kernel, trivial, trivial, List.forall_mem_nil _⟩
  have hfirst : s.pending = [0, 1] ∧ s.isHeldUp 0 = false ∧
      (s.equations[0]?.any fun e => e.state.isWaiting && e.body?.isSome) = true ∧
      ((s.turn 0).equations[0]?.any fun e => e.state.substitution?.any fun u =>
        u.pairs.any fun pair => pair.1.symbols.contains "x") = true := by
    rw [hs, hcs]
    decide +kernel
  have hsecond : (s.turn 0).isHeldUp 1 = false ∧
      (((s.turn 0).turn 1).registry.coefficients.all fun d => (s.turn 0).registry.isFinished d.key) = true ∧
      (((s.turn 0).turn 1).equations[1]?.any fun e => e.state.isSolved) = true ∧
      (((s.turn 0).turn 1).registry.coefficients.any fun c =>
        c.key.id == "b" && c.queue.isEmpty && c.tensor.isSome) = true := by
    rw [hs, hcs]
    decide +kernel
  obtain ⟨hpending, hfree, hwaiting, hfirst⟩ := hfirst
  obtain ⟨hfree', hfinished, hsecond, hb⟩ := hsecond
  obtain ⟨e, he, h⟩ := (Option.any_eq_true _ _).mp hwaiting
  rw [Bool.and_eq_true] at h
  obtain ⟨E, hbody⟩ := Option.isSome_iff_exists.mp h.2
  obtain ⟨e', he', hstate⟩ := (Option.any_eq_true _ _).mp hfirst
  obtain ⟨u, hu, hpairs⟩ := (Option.any_eq_true _ _).mp hstate
  obtain ⟨pair, hpair, hsymbols⟩ := List.any_eq_true.mp hpairs
  have hx : "x" ∈ u.eliminated := ⟨pair, hpair, by simpa using hsymbols⟩
  have hsolved := EquationState.eq_solved hu
  have hstep : s.Step [] (s.turn 0) := .turn hpending hfree
  have hafter : RunsWithout u.eliminated (s.turn 0) ([] ++ []) ((s.turn 0).turn 1) :=
    .step .start (.turn (pending_turn hpending) hfree') (completesWithout_of_all hfinished)
  obtain ⟨d, hd, hdsolved⟩ := (Option.any_eq_true _ _).mp hsecond
  obtain ⟨c, hc, hcb⟩ := List.any_eq_true.mp hb
  rw [Bool.and_eq_true, Bool.and_eq_true, beq_iff_eq, List.isEmpty_iff] at hcb
  obtain ⟨T, hT⟩ := Option.isSome_iff_exists.mp hcb.2
  have hgone := eliminated_stays_eliminated hrun hstep hafter hplain he (EquationState.isWaiting_iff.mp h.1) hbody he'
    hsolved c hc hcb.1.2 T hT _ hx
  exact ⟨_, s, _, _, u, hrun, hstep, hafter, ⟨e', he', hsolved⟩, ⟨d, hd, hdsolved⟩, hx, c, hc, hcb.1.1, T, hT, hgone⟩

end Session

end TensorEquations
