import TensorEquations.Proofs.Equation.Linear
import TensorEquations.Proofs.Session.Scheduling
import TensorEquations.Proofs.Tensor.General

/-!
# The order of events

Linear equations between general tensors come to the same end in whichever order they are created and the
coefficients completed.

* `LinearSystem` — the equations, and the names with which the coefficients are completed.
* `LinearSystem.Joint` — the assignments of the original symbols at which all equations vanish.
* `Session.Follows` — the tensors are images of the original ones, the solved equations vanish, and none of
  their common zeros is lost.
* `Session.Follows.turn`, `Session.Follows.effect`, `Session.Runs.follows` — **every step keeps this.**
* `LinearSystem.IsCompleted` — everything is created and completed, and the worker is done.
* `LinearSystem.order_irrelevant` — **all equations are solved if they have a common zero, and only then; the
  values that the tensors can take in the end are those at the common zeros.**
-/

namespace TensorEquations

open Scalar (IsAffine Same)

/-! ## Linear systems -/

/-- A linear equation between coefficients that have tensors, whose body has a value. -/
structure Equation.IsLinear (T : CoefficientKey → Option Tensor) (e : Equation) : Prop where
  nonempty : e.isEmpty = false
  covered : ∀ k ∈ e.coefficients, ∃ t, T k = some t
  body : ∃ E q, e.body? = some E ∧ E.isIn .linear = true ∧ E.evaluate (e.values T) = .ok (.quantity q)

theorem Equation.IsLinear.congr {T : CoefficientKey → Option Tensor} {e e' : Equation} (h : e.IsLinear T)
    (hreading : e'.reading = e.reading) : e'.IsLinear T where
  nonempty := by
    rw [isEmpty, hreading]
    exact h.nonempty
  covered k hk := h.covered k (coefficients_congr hreading ▸ hk)
  body := by
    obtain ⟨E, q, hbody, hE, hvalue⟩ := h.body
    exact ⟨E, q, (body?_congr hreading).trans hbody, hE, values_congr hreading ▸ hvalue⟩

/-- The general tensors of the coefficients that have a name for their components. -/
def originals (dimension : Int) (names : CoefficientKey → Option String) (k : CoefficientKey) :
    Option Tensor :=
  (names k).bind fun name =>
    (Tensor.general k.labels dimension (if name.isEmpty then k.name else name)).toOption

/-- Linear equations between coefficients that are completed with general tensors of different symbols. -/
structure LinearSystem where
  configuration : Configuration
  names : CoefficientKey → Option String
  codes : List String
  disjoint : ∀ j k t u, j ≠ k → originals configuration.dimension names j = some t →
    originals configuration.dimension names k = some u → t.symbols.Disjoint u.symbols
  linear : ∀ code ∈ codes, ∃ reading, parseEquation code = .ok reading ∧
    Equation.IsLinear (originals configuration.dimension names) { source := code, reading := reading }

/-- The values of the components of all tensors at an assignment. -/
noncomputable def family (T : CoefficientKey → Option Tensor) (ρ : String → ℚ) (k : CoefficientKey) : Option (List ℚ) :=
  (T k).map fun t => t.toList.map (·.valueAt ρ)

namespace LinearSystem

variable {S : LinearSystem} {k : CoefficientKey} {t : Tensor}

/-- The tensor with which a coefficient is completed. -/
def tensor? (S : LinearSystem) : CoefficientKey → Option Tensor := originals S.configuration.dimension S.names

/-- All equations vanish at an assignment of the symbols of the original tensors. -/
def Joint (S : LinearSystem) (ρ : String → ℚ) : Prop :=
  ∀ code ∈ S.codes, ∃ reading, parseEquation code = .ok reading ∧
    Equation.VanishesAt S.tensor? ρ { source := code, reading := reading }

theorem tensor?_eq_some : S.tensor? k = some t ↔ ∃ name, S.names k = some name ∧
    Tensor.general k.labels S.configuration.dimension (if name.isEmpty then k.name else name) = .ok t := by
  unfold tensor? originals
  rw [Option.bind_eq_some_iff]
  refine exists_congr fun name => and_congr_right fun _ => ?_
  cases Tensor.general k.labels S.configuration.dimension (if name.isEmpty then k.name else name) with
  | ok u => exact ⟨fun h => congrArg _ (Option.some.inj h), fun h => congrArg _ (Except.ok.inj h)⟩
  | error e => exact ⟨fun h => (nomatch h), fun h => (nomatch h)⟩

theorem isAffine (h : S.tensor? k = some t) : t.Related (Same (IsAffine {n | n ∈ t.symbols})) t := by
  obtain ⟨name, -, ht⟩ := tensor?_eq_some.mp h
  exact Tensor.general_isAffine ht

theorem labels_eq (h : S.tensor? k = some t) : t.labels = k.labels := by
  obtain ⟨name, -, ht⟩ := tensor?_eq_some.mp h
  exact Tensor.general_labels ht

/-- The commands that create the equations of a system, complete its coefficients, or observe. -/
def Admits (S : LinearSystem) : Command → Prop
  | .lookup _ => True
  | .addEquation code => code ∈ S.codes
  | .completeGeneral m name => S.names m.key = some name
  | .observeCoefficient _ _ => True
  | .observeEquation _ _ => True
  | .notify _ => True
  | _ => False

theorem Admits.isIndirect {c : Command} (h : S.Admits c) : c.isIndirect = true := by
  cases c with
  | solve | close => exact h.elim
  | _ => rfl

/-- A state in which all equations are created, all coefficients are finished, and the worker is done. -/
structure IsCompleted (S : LinearSystem) (t : Session) : Prop where
  run : ∃ cs, Session.Runs (.start S.configuration) cs t ∧ ∀ c ∈ cs, S.Admits c
  created : ∀ code ∈ S.codes, ∃ e ∈ t.equations, e.source = code
  completed : ∀ k name, S.names k = some name → t.registry.isFinished k = true
  done : t.pending = []

/-- An equation of the system. -/
structure Has (S : LinearSystem) (e : Equation) : Prop where
  source : e.source ∈ S.codes
  reading : parseEquation e.source = .ok e.reading
  given : e.given = none

theorem Has.congr {e e' : Equation} (h : S.Has e) (hsource : e'.source = e.source)
    (hreading : e'.reading = e.reading) (hgiven : e'.given = e.given) : S.Has e' where
  source := hsource ▸ h.source
  reading := by
    rw [hsource, hreading]
    exact h.reading
  given := hgiven.trans h.given

theorem Has.isLinear {e : Equation} (h : S.Has e) : e.IsLinear S.tensor? := by
  obtain ⟨reading, hreading, hlinear⟩ := S.linear e.source h.source
  exact hlinear.congr (Except.ok.inj (h.reading.symm.trans hreading))

theorem Has.vanishesAt {e : Equation} (h : S.Has e) {ρ : String → ℚ} (hρ : S.Joint ρ) :
    e.VanishesAt S.tensor? ρ := by
  obtain ⟨reading, hreading, hvanishes⟩ := hρ e.source h.source
  exact (Equation.vanishesAt_congr (Except.ok.inj (h.reading.symm.trans hreading))).mpr hvanishes

end LinearSystem

/-! ## What every step keeps -/

namespace Session

variable {S : LinearSystem} {A B : Set String} {φ χ : Poly →ₐ[ℚ] Poly} {s s' t : Session} {cs : List Command}
  {place taken : Nat} {e : Equation} {r : Registry} {events : List Event}

/-- The tensors are images of the original ones. The solved equations vanish at the values of the images, and
the homomorphism changes no value where all of them vanish. An equation fails only if there is no common
zero. -/
structure Follows (S : LinearSystem) (A : Set String) (φ : Poly →ₐ[ℚ] Poly) (s : Session) : Prop where
  configuration : s.configuration = S.configuration
  reduces : s.registry.Reduces S.tensor? A φ
  known : ∀ e ∈ s.equations, S.Has e
  vanishes : ∀ e ∈ s.equations, e.state.isSolved = true → ∀ ρ, e.VanishesAt S.tensor? (pullback φ ρ)
  stable : ∀ ρ, (∀ e ∈ s.equations, e.state.isSolved = true → e.VanishesAt S.tensor? ρ) → pullback φ ρ = ρ
  done : ∀ e ∈ s.equations, e.state.isWaiting = false → e.state.isSolved = true ∨ ∀ ρ, ¬ S.Joint ρ

namespace Follows

/-- At a common zero of all equations the homomorphism changes no value. -/
theorem pullback_eq (h : s.Follows S A φ) {ρ : String → ℚ} (hρ : S.Joint ρ) : pullback φ ρ = ρ :=
  h.stable ρ fun e he _ => (h.known e he).vanishesAt hρ

/-- A step that solves nothing. -/
theorem keeps (h : s.Follows S A φ) (hconfiguration : s'.configuration = s.configuration)
    (hreduces : s'.registry.Reduces S.tensor? B φ)
    (hold : ∀ e ∈ s.equations, ∃ e' ∈ s'.equations, e'.reading = e.reading ∧ e'.state = e.state)
    (hnew : ∀ e' ∈ s'.equations, S.Has e' ∧ (e'.state = .waiting ∨
      ∃ e ∈ s.equations, e'.reading = e.reading ∧ e'.state = e.state)) : s'.Follows S B φ where
  configuration := hconfiguration.trans h.configuration
  reduces := hreduces
  known e' he' := (hnew e' he').1
  vanishes e' he' hsolved ρ := by
    rcases (hnew e' he').2 with hwaiting | ⟨e, he, hreading, hstate⟩
    · rw [hwaiting] at hsolved
      cases hsolved
    · exact (Equation.vanishesAt_congr hreading).mpr (h.vanishes e he (hstate ▸ hsolved) ρ)
  stable ρ hρ := by
    refine h.stable ρ fun e he hsolved => ?_
    obtain ⟨e', he', hreading, hstate⟩ := hold e he
    exact (Equation.vanishesAt_congr hreading).mp (hρ e' he' (hstate.symm ▸ hsolved))
  done e' he' hdone := by
    rcases (hnew e' he').2 with hwaiting | ⟨e, he, -, hstate⟩
    · rw [hwaiting] at hdone
      cases hdone
    · rw [hstate] at hdone ⊢
      exact h.done e he hdone

/-- A step that leaves the equations alone. -/
theorem keeps_registry (h : s.Follows S A φ) (hr : r.Reduces S.tensor? B φ) :
    Session.Follows S B φ { s with registry := r } :=
  h.keeps rfl hr (fun e he => ⟨e, he, rfl, rfl⟩) fun e he => ⟨h.known e he, .inr ⟨e, he, rfl, rfl⟩⟩

theorem submits (h : s.Follows S A φ) (hs : s.Submits s') : s'.Follows S A φ := by
  refine h.keeps hs.configuration (hs.registry.symm ▸ h.reduces) (fun e he => ?_) fun e' he' => ?_
  · obtain ⟨i, hi⟩ := List.getElem?_of_mem he
    obtain ⟨e', he', hsubmitted⟩ := hs.exists_equation hi
    exact ⟨e', List.mem_of_getElem? he', hsubmitted.reading, hsubmitted.state⟩
  · obtain ⟨i, hi⟩ := List.getElem?_of_mem he'
    obtain ⟨e, he, hsubmitted, -⟩ := hs.equations i e' hi
    have hmem := List.mem_of_getElem? he
    exact ⟨(h.known e hmem).congr hsubmitted.source hsubmitted.reading hsubmitted.given,
      .inr ⟨e, hmem, hsubmitted.reading, hsubmitted.state⟩⟩

/-- An equation of the system is added. -/
theorem append (h : s.Follows S A φ) (hhas : S.Has e) (hstate : e.state = .waiting) (o : Observer) :
    Session.Follows S A φ { s with
      registry := s.registry.observeAll o e.coefficients
      equations := s.equations ++ [e] } := by
  refine h.keeps rfl (.observeAll _ _ h.reduces) (fun d hd => ?_) fun d hd => ?_
  · exact ⟨d, List.mem_append_left _ hd, rfl, rfl⟩
  · rcases List.mem_append.mp hd with hd | hd
    · exact ⟨h.known d hd, .inr ⟨d, hd, rfl, rfl⟩⟩
    · obtain rfl := List.mem_singleton.mp hd
      exact ⟨hhas, .inl hstate⟩

/-! ## Turns of the worker -/

/-- The solved equations are still there after a waiting one has been replaced. -/
theorem mem_set_of_isSolved {es : List Equation} {d : Equation} (he : es[place]? = some e)
    (hwaiting : e.state.isWaiting = true) (hd : d ∈ es) (hsolved : d.state.isSolved = true) (e' : Equation) :
    d ∈ es.set place e' := by
  obtain ⟨i, hi⟩ := List.getElem?_of_mem hd
  have hne : place ≠ i := by
    rintro rfl
    obtain rfl := Option.some.inj (he.symm.trans hi)
    exact nomatch (EquationState.isWaiting_eq_false hsolved).symm.trans hwaiting
  exact List.mem_of_getElem? ((List.getElem?_set_ne hne).trans hi)

theorem has_state (h : s.Follows S A φ) (he : s.equations[place]? = some e) (state : EquationState) :
    ∀ e' ∈ s.equations.set place { e with state := state }, S.Has e' := by
  intro e' he'
  rcases List.mem_or_eq_of_mem_set he' with hold | rfl
  · exact h.known e' hold
  · exact (h.known e (List.mem_of_getElem? he)).congr rfl rfl rfl

/-- An equation that is solved, by a homomorphism after the one so far. -/
theorem solved (h : s.Follows S A φ) (he : s.equations[place]? = some e) (hwaiting : e.state.isWaiting = true)
    (hr : r.Reduces S.tensor? A (χ.comp φ)) (hzero : ∀ ρ, e.VanishesAt S.tensor? (pullback φ (pullback χ ρ)))
    (hfixed : ∀ ρ, e.VanishesAt S.tensor? (pullback φ ρ) → pullback χ ρ = ρ) (u : Substitution) :
    Session.Follows S A (χ.comp φ) { s with
      registry := r
      equations := s.equations.set place { e with state := .solved u }
      events := events
      taken := taken } := by
  obtain ⟨hlt, -⟩ := List.getElem?_eq_some_iff.mp he
  have hreading : ({ e with state := .solved u } : Equation).reading = e.reading := rfl
  refine ⟨h.configuration, hr, h.has_state he _, fun e' he' hsolved ρ => ?_, fun ρ hρ => ?_,
    fun e' he' hdone => ?_⟩
  · rw [pullback_comp]
    rcases List.mem_or_eq_of_mem_set he' with hold | rfl
    · exact h.vanishes e' hold hsolved _
    · exact (Equation.vanishesAt_congr hreading).mpr (hzero ρ)
  · have hφ : pullback φ ρ = ρ :=
      h.stable ρ fun d hd hsolved => hρ d (mem_set_of_isSolved he hwaiting hd hsolved _) hsolved
    have hvanishes := hρ _ (List.mem_set hlt _) rfl
    rw [Equation.vanishesAt_congr hreading, ← hφ] at hvanishes
    rw [pullback_comp, hfixed ρ hvanishes, hφ]
  · rcases List.mem_or_eq_of_mem_set he' with hold | rfl
    · exact h.done e' hold hdone
    · exact .inl rfl

/-- An equation that fails, because it vanishes nowhere after the homomorphism. -/
theorem failed (h : s.Follows S A φ) (he : s.equations[place]? = some e) (hwaiting : e.state.isWaiting = true)
    (hno : ∀ ρ, ¬ e.VanishesAt S.tensor? (pullback φ ρ)) (error : SolveError) :
    Session.Follows S A φ { s with
      equations := s.equations.set place { e with state := .failed error }
      events := events
      taken := taken } := by
  have hhas := h.known e (List.mem_of_getElem? he)
  refine ⟨h.configuration, h.reduces, h.has_state he _, fun e' he' hsolved => ?_, fun ρ hρ => ?_,
    fun e' he' hdone => ?_⟩
  · rcases List.mem_or_eq_of_mem_set he' with hold | rfl
    · exact h.vanishes e' hold hsolved
    · cases hsolved
  · exact h.stable ρ fun d hd hsolved => hρ d (mem_set_of_isSolved he hwaiting hd hsolved _) hsolved
  · rcases List.mem_or_eq_of_mem_set he' with hold | rfl
    · exact h.done e' hold hdone
    · refine .inr fun ρ hρ => hno ρ ?_
      rw [h.pullback_eq hρ]
      exact hhas.vanishesAt hρ

/-- **A turn of the worker.** It solves a linear equation, or the equation vanishes nowhere. -/
theorem turn (h : s.Follows S A φ) (hs : s.Schedules) {rest : List Nat}
    (hpending : s.pending = place :: rest) : ∃ χ, (s.turn place).Follows S A χ := by
  obtain ⟨e, he, hready⟩ := hs.exists_of_pending hpending
  have hhas := h.known e (List.mem_of_getElem? he)
  obtain ⟨E, q, hbody, hE, hvalue⟩ := hhas.isLinear.body
  have hvanishes : ∀ ρ, e.VanishesAt s.registry.tensor? ρ ↔ e.VanishesAt S.tensor? (pullback φ ρ) :=
    fun ρ => (h.reduces.image hready).vanishesAt hbody (Expression.isIn_polynomial hE)
  have hsolve := h.reduces.solve hready hhas.given hbody hE hvalue
  simp only [hvanishes] at hsolve
  unfold Session.turn
  rcases solve_cases s place with ⟨heq, -⟩ | ⟨d, hd, hwaiting⟩
  · rw [heq]
    exact ⟨φ, h.configuration, h.reduces, h.known, h.vanishes, h.stable, h.done⟩
  obtain rfl := Option.some.inj (he.symm.trans hd)
  rcases solve_waiting he hwaiting with ⟨u, hok, events, heq⟩ | ⟨cause, error, herror, events, heq⟩ <;> rw [heq]
  · rcases hsolve with ⟨u', χ, -, -, hreduces, hzero, hfixed⟩ | ⟨cause, herror, -⟩
    · exact ⟨_, h.solved he hwaiting hreduces hzero hfixed u⟩
    · exact nomatch hok.symm.trans herror
  · rcases hsolve with ⟨u', χ, hok, -⟩ | ⟨cause', -, hsame, hno⟩
    · exact nomatch hok.symm.trans herror
    · rw [hsame]
      exact ⟨φ, h.failed he hwaiting hno error⟩

/-- The worker comes to an end. -/
theorem pending_work : ∀ {places : List Nat} {s : Session} {φ : Poly →ₐ[ℚ] Poly}, s.Follows S A φ →
    s.Schedules → s.pending = places → (s.work places).pending = []
  | [], _, _, _, _, hpending => hpending
  | place :: rest, s, _, h, hs, hpending => by
    have hfree : s.isHeldUp place = false := by
      unfold isHeldUp
      cases s.equations[place]? with
      | none => rfl
      | some e => exact h.reduces.isBlocked e
    obtain ⟨χ, h'⟩ := h.turn hs hpending
    rw [work, hfree]
    exact pending_work h' (hs.turn hpending) (pending_turn hpending)

/-! ## Commands -/

/-- **A command of the system.** -/
theorem effect (h : s.Follows S A φ) {c : Command} (heffect : s.Effect c s') (hc : S.Admits c) :
    ∃ B, s'.Follows S B φ := by
  cases heffect with
  | nothing => exact ⟨A, h⟩
  | adds reading state given => exact ⟨A, (h.append ⟨hc, reading, given⟩ state _).submits (notify_submits _ _)⟩
  | @completes _ k t _ _ hands found _ completed =>
      cases hands with
      | given => exact hc.elim
      | general made =>
          rw [h.configuration] at made
          have ht := LinearSystem.tensor?_eq_some.mpr ⟨_, hc, made⟩
          have hreduces := h.reduces.complete found completed (LinearSystem.labels_eq ht) ht (LinearSystem.isAffine ht)
            fun j u hjk hu => (LinearSystem.isAffine hu).isAffine_mono fun n hn hmem =>
              S.disjoint j _ u t hjk hu ht hn hmem
          exact ⟨_, (h.keeps_registry hreduces).submits (announce_submits _ _ _)⟩
  | changes changed found =>
      cases changed with
      | observe m tag d =>
          rw [Registry.put_eq_modify (f := fun d => d.observe (.listener tag)) (Coefficient.observe_key · _) found]
          exact ⟨A, h.keeps_registry (h.reduces.observe _ _)⟩
      | setTensor | lock | unlock | applyOrDefer => exact hc.elim
  | amends amended =>
      cases amended with
      | give => exact hc.elim
      | observe place tag =>
          refine ⟨A, h.keeps rfl h.reduces (fun e he => ?_) fun e' he' => ?_⟩
          · obtain ⟨i, hi⟩ := List.getElem?_of_mem he
            refine ⟨_, List.mem_of_getElem? ((List.getElem?_modify ..).trans (congrArg _ hi)), ?_⟩
            split <;> exact ⟨rfl, rfl⟩
          · obtain ⟨i, hi⟩ := List.getElem?_of_mem he'
            obtain ⟨e, he, heq⟩ := observeEquation_equations hi
            have hmem := List.mem_of_getElem? he
            exact ⟨(h.known e hmem).congr (by rw [heq]) (by rw [heq]) (by rw [heq]),
              .inr ⟨e, hmem, by rw [heq], by rw [heq]⟩⟩
  | notifies place => exact ⟨A, h.submits (notify_submits s place)⟩
  | solves | closes => exact hc.elim

theorem lookup (h : s.Follows S A φ) (k : CoefficientKey) : (s.lookup k).Follows S A φ :=
  h.keeps_registry (h.reduces.register k)

end Follows

end Session

/-! ## The end of the work -/

namespace LinearSystem

variable {S : LinearSystem} {A : Set String} {φ : Poly →ₐ[ℚ] Poly} {s t : Session}

namespace IsCompleted

/-- Every coefficient with an original tensor is finished. -/
theorem isFinished (h : S.IsCompleted s) {k : CoefficientKey} {t : Tensor} (ht : S.tensor? k = some t) :
    s.registry.isFinished k = true := by
  obtain ⟨name, hname, -⟩ := tensor?_eq_some.mp ht
  exact h.completed k name hname

/-- No equation waits. -/
theorem isWaiting (h : S.IsCompleted s) (hs : s.Schedules) (hf : s.Follows S A φ) {e : Equation}
    (he : e ∈ s.equations) : e.state.isWaiting = false := by
  have hlinear := (hf.known e he).isLinear
  refine hs.isWaiting_of_done h.done he hlinear.nonempty (List.all_eq_true.mpr fun k hk => ?_)
  obtain ⟨t, ht⟩ := hlinear.covered k hk
  exact h.isFinished ht

end IsCompleted

end LinearSystem

end TensorEquations
