import TensorEquations.Proofs.Equation.Advance
import TensorEquations.Proofs.Session.Effect
import TensorEquations.Proofs.Tensor.General

/-!
# Solved equations stay solved

* `Command.IsPlain` — the commands that replace no tensor by hand and complete coefficients with polynomials.
* `Session.Persists` — every solved equation holds.
* `Session.Persists.advance` — a step that moves all settled tensors by one homomorphism keeps this.
* `Session.Runs.persists` — **so every solved equation holds in all states of a run.**
* `Session.solved_equations_vanish` — **once no substitution waits, the body of a solved equation expands to
  zero.**
-/

namespace TensorEquations

/-- Commands that neither replace nor revise a tensor by hand and complete coefficients with polynomials. -/
def Command.IsPlain : Command → Prop
  | .complete _ t => t.IsPolynomial
  | .setTensor _ _ => False
  | .applyOrDefer _ _ => False
  | .giveEvaluation _ _ _ => False
  | _ => True

namespace Command

variable {c : Command} {k : CoefficientKey} {d d' : Coefficient}

theorem Hands.isPolynomial {s : Session} {t : Tensor} (h : c.Hands s k t) (hc : c.IsPlain) : t.IsPolynomial := by
  cases h with
  | given => exact hc
  | general made => exact Tensor.general_isPolynomial made

/-- A plain command leaves the settled tensor of a coefficient as it is, unless it completes it. -/
theorem Changes.moves (h : c.Changes k d d') (hc : c.IsPlain) (hd : d.IsPolynomial) :
    d'.IsPolynomial ∧ d.Moves (AlgHom.id ℚ Poly) d' := by
  cases h with
  | setTensor | applyOrDefer => exact hc.elim
  | lock => exact ⟨hd.lock, hd.moves rfl rfl⟩
  | unlock => exact hd.unlock
  | observe => exact ⟨hd.observe _, hd.moves rfl rfl⟩

end Command

namespace Session

variable {s s' t : Session} {cs : List Command}

/-- Every solved equation holds, and no evaluation is a given one. -/
structure Persists (s : Session) : Prop where
  registry : s.registry.IsPolynomial
  given : ∀ e ∈ s.equations, e.given = none
  holds : ∀ e ∈ s.equations, e.state.isSolved = true → e.Holds s.registry

theorem persists_start (configuration : Configuration) : (Session.start configuration).Persists :=
  ⟨Registry.isPolynomial_empty, fun _ he => (nomatch he), fun _ he => (nomatch he)⟩

namespace Persists

/-- **A step that moves all settled tensors by one homomorphism.** The equations that are solved after it
either were solved before or hold. -/
theorem advance (h : s.Persists) {φ : Poly →ₐ[ℚ] Poly} (hr : Registry.Advances φ s.registry s'.registry)
    (he : ∀ e' ∈ s'.equations, e'.given = none ∧ (e'.state.isSolved = true → e'.Holds s'.registry ∨
      ∃ e ∈ s.equations, e'.reading = e.reading ∧ e.state.isSolved = true)) : s'.Persists where
  registry := hr.isPolynomial
  given e' he' := (he e' he').1
  holds e' he' hsolved := by
    rcases (he e' he').2 hsolved with hholds | ⟨e, hmem, hreading, hstate⟩
    · exact hholds
    · exact (Equation.holds_congr hreading).mpr ((h.holds e hmem hstate).advance hr)

/-- A step that leaves the equations alone. -/
theorem advance_registry (h : s.Persists) {φ : Poly →ₐ[ℚ] Poly}
    (hr : Registry.Advances φ s.registry s'.registry) (he : s'.equations = s.equations) : s'.Persists :=
  h.advance hr fun e hmem => ⟨h.given e (he ▸ hmem), fun hsolved => .inr ⟨e, he ▸ hmem, rfl, hsolved⟩⟩

theorem submits (h : s.Persists) (hs : s.Submits s') : s'.Persists := by
  refine h.advance (h.registry.advances_of_eq hs.registry) fun e' he' => ?_
  obtain ⟨i, hi⟩ := List.getElem?_of_mem he'
  obtain ⟨e, he, hsubmitted, -⟩ := hs.equations i e' hi
  have hmem := List.mem_of_getElem? he
  refine ⟨hsubmitted.given.trans (h.given e hmem), fun hsolved => .inr ⟨e, hmem, hsubmitted.reading, ?_⟩⟩
  rw [← hsubmitted.state]
  exact hsolved

/-- Another coefficient in the place of one, which moves by no homomorphism. -/
theorem put (h : s.Persists) {k : CoefficientKey} {c c' : Coefficient} (hc : s.registry.find? k = some c)
    (hkey : c'.key = c.key) (hc' : c'.IsPolynomial) (hmoves : c.Moves (AlgHom.id ℚ Poly) c') :
    Session.Persists { s with registry := s.registry.put c' } :=
  h.advance_registry (h.registry.advances_put hc hkey hc' hmoves) rfl

/-- An equation that waits is added. -/
theorem append (h : s.Persists) {e : Equation} (hstate : e.state = .waiting) (hgiven : e.given = none)
    (o : Observer) : Session.Persists { s with
      registry := s.registry.observeAll o e.coefficients
      equations := s.equations ++ [e] } := by
  refine h.advance (h.registry.advances_observeAll _ e.nodup_coefficients) fun e' he' => ?_
  rcases List.mem_append.mp he' with hmem | hmem
  · exact ⟨h.given e' hmem, fun hsolved => .inr ⟨e', hmem, rfl, hsolved⟩⟩
  · obtain rfl := List.mem_singleton.mp hmem
    refine ⟨hgiven, fun hsolved => ?_⟩
    rw [hstate] at hsolved
    cases hsolved

theorem solve (h : s.Persists) {place : Nat} (hfree : s.isHeldUp place = false) :
    (s.solve place).1.Persists := by
  rcases solve_cases s place with ⟨heq, -⟩ | ⟨e, he, hwaiting⟩
  · rw [heq]
    exact h
  have hmem := List.mem_of_getElem? he
  have hblocked := isBlocked_of_isHeldUp hfree he
  have hset : ∀ state, ∀ e' ∈ s.equations.set place { e with state := state },
      e' = { e with state := state } ∨ e' ∈ s.equations :=
    fun state e' he' => (List.mem_or_eq_of_mem_set he').symm
  rcases h.registry.solve hblocked (h.given e hmem) with
    ⟨cause, herror, hsame⟩ | ⟨u, hok, hu, -, htakes, -⟩
  · rcases solve_waiting he hwaiting with ⟨_, hok, -⟩ | ⟨_, error, -, _, heq⟩
    · exact nomatch herror.symm.trans hok
    · rw [heq]
      refine h.advance (h.registry.advances_of_eq hsame) fun e' he' => ?_
      rcases hset _ e' he' with rfl | hold
      · exact ⟨h.given e hmem, fun hsolved => (nomatch hsolved)⟩
      · exact ⟨h.given e' hold, fun hsolved => .inr ⟨e', hold, rfl, hsolved⟩⟩
  · rcases solve_waiting he hwaiting with ⟨u', hok', _, heq⟩ | ⟨_, _, herror, -⟩
    · rw [heq]
      refine h.advance (h.registry.advances_takes hu htakes) fun e' he' => ?_
      rcases hset _ e' he' with rfl | hold
      · have hholds := h.registry.solve_holds hblocked (h.given e hmem) hok
        exact ⟨h.given e hmem, fun _ => .inl ((Equation.holds_state _).mpr hholds)⟩
      · exact ⟨h.given e' hold, fun hsolved => .inr ⟨e', hold, rfl, hsolved⟩⟩
    · exact nomatch hok.symm.trans herror

/-- **A plain command.** -/
theorem effect (h : s.Persists) {c : Command} (heffect : s.Effect c s') (hc : c.IsPlain) : s'.Persists := by
  cases heffect with
  | nothing => exact h
  | adds _ state given => exact (h.append state given _).submits (notify_submits _ _)
  | completes hands found free completed =>
      obtain ⟨hkey, hunfinished, -⟩ := Coefficient.complete_frame completed
      have hpolynomial := (Registry.isPolynomial_iff.mp h.registry _ _ found).complete (hands.isPolynomial hc) completed
      have hput := h.put found hkey hpolynomial (Coefficient.moves_of_unfinished hunfinished)
      exact hput.submits (announce_submits _ _ _)
  | changes changed found =>
      have hpolynomial := Registry.isPolynomial_iff.mp h.registry _ _ found
      obtain ⟨hpolynomial', hmoves⟩ := changed.moves hc hpolynomial
      exact h.put found changed.key hpolynomial' hmoves
  | amends amended =>
      cases amended with
      | give => exact hc.elim
      | observe place tag =>
          refine h.advance h.registry.advances_refl fun e' he' => ?_
          obtain ⟨i, hi⟩ := List.getElem?_of_mem he'
          obtain ⟨e, he, heq⟩ := observeEquation_equations hi
          have hmem := List.mem_of_getElem? he
          rw [heq]
          exact ⟨h.given e hmem, fun hsolved => .inr ⟨e, hmem, rfl, hsolved⟩⟩
  | notifies place => exact h.submits (notify_submits s place)
  | solves free => exact h.solve free
  | closes => exact h.advance_registry h.registry.advances_refl rfl

theorem lookup (h : s.Persists) (k : CoefficientKey) : (s.lookup k).Persists :=
  h.advance_registry (h.registry.advances_register k) rfl

theorem lookupAll (h : s.Persists) (ms : List Mention) : (s.lookupAll ms).Persists :=
  lookupAll_induction (fun _ k ht => ht.lookup k) h ms

theorem issue (h : s.Persists) {c : Command} (hc : c.IsPlain) : (s.issue c).Persists :=
  (h.lookupAll c.mentions).effect (issue_effect s c) hc

theorem turn (h : s.Persists) {place : Nat} (hfree : s.isHeldUp place = false) : (s.turn place).Persists :=
  (h.solve hfree).advance_registry (h.solve hfree).registry.advances_refl rfl

end Persists

/-- **In all states of a run of plain commands every solved equation holds.** -/
theorem Runs.persists {configuration : Configuration} (h : Runs (Session.start configuration) cs t)
    (hplain : ∀ c ∈ cs, c.IsPlain) : t.Persists :=
  h.invariant (P := Persists) (persists_start configuration)
    (fun _ _ hc ht => ht.issue hc) (fun _ _ _ _ hfree ht => ht.turn hfree) hplain

/-- **Solved equations stay solved.** In every state of a run of plain commands in which no substitution waits
in a queue, the body of a solved equation has a value under the present tensors, and this value expands to
zero. -/
theorem solved_equations_vanish {configuration : Configuration} {e : Equation} {E : Expression}
    (hrun : Runs (start configuration) cs t) (hplain : ∀ c ∈ cs, c.IsPlain)
    (hqueues : ∀ c ∈ t.registry.coefficients, c.queue = []) (he : e ∈ t.equations)
    (hsolved : e.state.isSolved = true) (hbody : e.body? = some E) (hE : E.isIn .polynomial = true) :
    ∃ q, E.evaluate (t.registry.bindings e) = .ok (.quantity q) ∧ q.toTensor.isZero = true := by
  have hpersists := hrun.persists hplain
  have hvanishes := (hpersists.holds e he hsolved).2 E hbody hE
  have hsettled : e.values t.registry.settled? = t.registry.bindings e :=
    Registry.values_settled? fun k _ c hc => hqueues c (Registry.mem_of_find? hc)
  obtain ⟨v, hv⟩ : ∃ v, E.evaluate (t.registry.bindings e) = .ok v := by
    obtain ⟨E', v, hE', hv, -⟩ := hvanishes fun _ => 0
    obtain rfl := Option.some.inj (hbody.symm.trans hE')
    exact ⟨v, hsettled ▸ hv⟩
  have hzero : ∀ ρ, v.VanishesAt ρ := by
    intro ρ
    obtain ⟨E', v', hE', hv', hρ⟩ := hvanishes ρ
    obtain rfl := Option.some.inj (hbody.symm.trans hE')
    rw [hsettled, hv] at hv'
    obtain rfl := Except.ok.inj hv'
    exact hρ
  have hpolynomial := E.evaluate_isPolynomial (hpersists.registry.bindings e) hv
  obtain ⟨q, rfl, hq⟩ := Value.exists_isZero hpolynomial hzero
  exact ⟨q, hv, hq⟩

/-- An equation for one scalar coefficient, which is completed and solved for. -/
theorem solved_equations_vanish_scalar : ∃ cs t e E, Runs (start .planar) cs t ∧ e ∈ t.equations ∧
    e.state.isSolved = true ∧ e.body? = some E ∧
      ∃ q, E.evaluate (t.registry.bindings e) = .ok (.quantity q) ∧ q.toTensor.isZero = true := by
  obtain ⟨cs, hcs⟩ : ∃ cs : List Command, cs = [.addEquation "#<a:0:0:0:0:\x7b\x7d>-3",
    .completeGeneral ⟨⟨0, 0, 0, 0⟩, "a"⟩ ""] := ⟨_, rfl⟩
  obtain ⟨s, hs⟩ : ∃ s, s = cs.foldl issue (start .planar) := ⟨_, rfl⟩
  have hpending : s.pending = [0] ∧ s.isHeldUp 0 = false := by
    rw [hs, hcs]
    decide +kernel
  have hrun : Runs (start .planar) cs (s.turn 0) := by
    have hissued : Runs (start .planar) ([] ++ cs) s := hs ▸ Runs.start.issueAll cs
    exact hissued.turn hpending.1 hpending.2
  have hsolved : ((s.turn 0).registry.coefficients.all fun c => c.queue.isEmpty) = true ∧
      ((s.turn 0).equations[0]?.any fun e => e.state.isSolved &&
        e.body?.any fun E => E.isIn .polynomial) = true := by
    rw [hs, hcs]
    decide +kernel
  obtain ⟨e, he, h⟩ := (Option.any_eq_true _ _).mp hsolved.2
  rw [Bool.and_eq_true] at h
  obtain ⟨E, hbody, hE⟩ := (Option.any_eq_true _ _).mp h.2
  have hmem := List.mem_of_getElem? he
  have hplain : ∀ c ∈ cs, c.IsPlain := by
    rw [hcs]
    simp [Command.IsPlain]
  have hqueues : ∀ c ∈ (s.turn 0).registry.coefficients, c.queue = [] :=
    fun c hc => List.isEmpty_iff.mp (List.all_eq_true.mp hsolved.1 c hc)
  exact ⟨cs, s.turn 0, e, E, hrun, hmem, h.1, hbody,
    solved_equations_vanish hrun hplain hqueues hmem h.1 hbody hE⟩

end Session

end TensorEquations
