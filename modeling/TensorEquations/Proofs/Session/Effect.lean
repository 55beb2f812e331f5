import TensorEquations.Proofs.Equation.Standing
import TensorEquations.Proofs.Session.Run
import TensorEquations.Proofs.Session.Step

/-!
# What a command does

Whatever is asked of a session, there are few ways in which it changes. Every invariant of sessions is a case analysis
over them.

* `Command.MayPass`, `Command.Hands`, `Command.Changes`, `Command.Amends` — whether a command can leave a session as it
  is, the tensor that it hands to a coefficient, and what it makes of the coefficient or of the equation it is about.
* `Session.Effect` — what a command does once the coefficients that it mentions are registered.
* `Session.execute_effect`, `Session.issue_effect` — **every command has such an effect**, whether it fails or not.
* `Session.Runs.preserves` — **what all registrations, effects and turns keep holds in every state of a run.**
-/

namespace TensorEquations

namespace Command

/-- Whether a command can leave a session as it is. Listeners and evaluations are always taken, and a session is always
closed. -/
def MayPass (s : Session) : Command → Prop
  | .observeCoefficient m _ => s.registry.find? m.key = none
  | .observeEquation _ _ => False
  | .giveEvaluation _ _ _ => False
  | .close => False
  | _ => True

/-- The tensor that a command hands to a coefficient as its final one. -/
inductive Hands (s : Session) : Command → CoefficientKey → Tensor → Prop
  | given (m : Mention) (t : Tensor) : Hands s (.complete m t) m.key t
  | general {m : Mention} {name : String} {t : Tensor} (made : Tensor.general m.key.labels s.configuration.dimension
      (if name.isEmpty then m.key.name else name) = .ok t) : Hands s (.completeGeneral m name) m.key t

/-- What a command makes of the coefficient that it is about, unless it completes it. -/
inductive Changes : Command → CoefficientKey → Coefficient → Coefficient → Prop
  | setTensor {m : Mention} {t : Tensor} {d d' : Coefficient} (stored : d.setTensor t = .ok d') :
      Changes (.setTensor m t) m.key d d'
  | lock (m : Mention) {d : Coefficient} (free : d.isLocked = false) : Changes (.lock m) m.key d d.lock
  | unlock (m : Mention) (d : Coefficient) : Changes (.unlock m) m.key d d.unlock.1
  | applyOrDefer {m : Mention} {f : Revision} {d d' : Coefficient} {b : Bool}
      (taken : d.applyOrDefer f = .ok (d', b)) : Changes (.applyOrDefer m f) m.key d d'
  | observe (m : Mention) (tag : String) (d : Coefficient) :
      Changes (.observeCoefficient m tag) m.key d (d.observe (.listener tag))

/-- What a command makes of the equation that it is about, unless it submits or solves it. -/
inductive Amends : Command → Nat → (Equation → Equation) → Prop
  | observe (place : Nat) (tag : String) :
      Amends (.observeEquation place tag) place fun e => { e with listeners := e.listeners ++ [tag] }
  | give (place : Nat) (handed : List (Mention × Substitution)) (u : Substitution) :
      Amends (.giveEvaluation place handed u) place fun e => { e with given := some {
        handed := handed.map fun (m, v) => (m.key, v)
        substitution := u } }

variable {c : Command} {k : CoefficientKey} {d d' : Coefficient}

theorem Changes.key (h : c.Changes k d d') : d'.key = d.key := by
  cases h with
  | setTensor stored => exact (Coefficient.setTensor_frame stored).1
  | lock => rfl
  | unlock => exact d.unlock_key
  | applyOrDefer taken => exact Coefficient.applyOrDefer_key taken
  | observe => rfl

/-- Such a command adds a listener, or no coefficient gets another observer or is finished. -/
theorem Changes.retains_or_observes {r : Registry} (h : c.Changes k d d') (hd : r.find? k = some d) :
    ((∀ m tag, c ≠ .observeCoefficient m tag) ∧ r.Retains (r.put d')) ∨
      ∃ m tag, c = .observeCoefficient m tag ∧ m.key = k ∧
        r.put d' = r.modify k fun d => d.observe (.listener tag) := by
  have hput : d'.standing = d.standing → r.Retains (r.put d') := Registry.retains_put hd h.key
  cases h with
  | setTensor stored => exact .inl ⟨fun _ _ => nofun, hput (Coefficient.setTensor_frame stored).2⟩
  | lock => exact .inl ⟨fun _ _ => nofun, hput d.lock_standing⟩
  | unlock => exact .inl ⟨fun _ _ => nofun, hput d.unlock_standing⟩
  | applyOrDefer taken => exact .inl ⟨fun _ _ => nofun, hput (Coefficient.applyOrDefer_standing taken)⟩
  | observe m tag =>
      exact .inr ⟨m, tag, rfl, rfl, Registry.put_eq_modify (f := fun d => d.observe (.listener tag))
        (Coefficient.observe_key · _) hd⟩

end Command

namespace Session

variable {s s' t : Session} {cs : List Command} {c : Command} {k : CoefficientKey}

/-! ## Effects -/

/-- What a command does to a session in which the coefficients that it mentions are registered. Whoever observes a
coefficient that is completed hears of it, and so does an equation that is added. -/
inductive Effect (s : Session) : Command → Session → Prop
  | nothing {c : Command} (passes : c.MayPass s) : Effect s c s
  | adds {e : Equation} (reading : parseEquation e.source = .ok e.reading) (state : e.state = .waiting)
      (given : e.given = none) (unscheduled : e.isScheduled = false) :
      Effect s (.addEquation e.source) ({ s with
        registry := s.registry.observeAll (.equation s.equations.length) e.coefficients
        equations := s.equations ++ [e] }.notify s.equations.length).1
  | completes {c : Command} {k : CoefficientKey} {t : Tensor} {d d' : Coefficient} (hands : c.Hands s k t)
      (found : s.registry.find? k = some d) (free : d.isLocked = false) (completed : d.complete t = .ok d') :
      Effect s c ({ s with registry := s.registry.put d' }.announce k d'.observers).1
  | changes {c : Command} {k : CoefficientKey} {d d' : Coefficient} (changed : c.Changes k d d')
      (found : s.registry.find? k = some d) : Effect s c { s with registry := s.registry.put d' }
  | amends {c : Command} {place : Nat} {f : Equation → Equation} (amended : c.Amends place f) :
      Effect s c (s.modifyEquation place f)
  | notifies (place : Nat) : Effect s (.notify place) (s.notify place).1
  | solves {place : Nat} (free : s.isHeldUp place = false) : Effect s (.solve place) (s.solve place).1
  | closes : Effect s .close { s with isClosed := true }

theorem complete_effect {t : Tensor} (h : c.Hands s k t) : s.Effect c (s.complete k t).1 := by
  rcases complete_cases s k t with heq | ⟨d, d', hfind, hfree, hcomplete, heq⟩ <;> rw [heq]
  · refine .nothing ?_
    cases h <;> trivial
  · exact .completes h hfind hfree hcomplete

theorem modifyCoefficient_effect {f : Coefficient → Coefficient} (hf : ∀ d, (f d).key = d.key)
    (hnone : s.registry.find? k = none → c.MayPass s)
    (hsome : ∀ d, s.registry.find? k = some d → c.Changes k d (f d)) : s.Effect c (s.modifyCoefficient k f) := by
  unfold modifyCoefficient
  cases hfind : s.registry.find? k with
  | none =>
      rw [Registry.modify_of_none hfind f hf]
      exact .nothing (hnone hfind)
  | some d =>
      rw [← Registry.put_eq_modify hf hfind]
      exact .changes (hsome d hfind) hfind

/-- **Every command has an effect of these**, whether it fails or not. -/
theorem execute_effect (s : Session) (c : Command) : s.Effect c (s.execute c).1 := by
  cases c with
  | lookup m => exact .nothing trivial
  | addEquation code =>
      rw [execute, outcome_fst]
      rcases addEquation_cases s code with heq | ⟨e, rfl, hreading, hstate, hgiven, hunscheduled, heq⟩ <;> rw [heq]
      · exact .nothing trivial
      · exact .adds hreading hstate hgiven hunscheduled
  | complete m t =>
      rw [execute, outcome_fst]
      exact complete_effect (.given m t)
  | completeGeneral m name =>
      rw [execute, outcome_fst]
      rcases completeGeneral_cases s m.key name with heq | ⟨t, hmade, heq⟩ <;> rw [heq]
      · exact .nothing trivial
      · exact complete_effect (.general hmade)
  | setTensor m t =>
      rw [execute, outcome_fst]
      rcases setTensor_cases s m.key t with heq | ⟨d, d', hfind, hstored, heq⟩ <;> rw [heq]
      · exact .nothing trivial
      · exact .changes (.setTensor hstored) hfind
  | lock m =>
      rw [execute, outcome_fst]
      rcases lock_cases s m.key with heq | ⟨hfree, heq⟩ <;> rw [heq]
      · exact .nothing trivial
      · exact modifyCoefficient_effect Coefficient.lock_key (fun _ => trivial) fun d hfind =>
          .lock m (Registry.isLocked_of_find? hfind ▸ hfree)
  | unlock m =>
      rw [execute, outcome_fst]
      rcases unlock_cases s m.key with heq | ⟨d, hfind, heq⟩ <;> rw [heq]
      · exact .nothing trivial
      · exact .changes (.unlock m d) hfind
  | applyOrDefer m f =>
      show s.Effect _ (s.applyOrDefer m.key f).1
      rcases applyOrDefer_cases s m.key f with heq | ⟨d, d', b, hfind, htaken, heq⟩ <;> rw [heq]
      · exact .nothing trivial
      · exact .changes (.applyOrDefer htaken) hfind
  | observeCoefficient m tag =>
      exact modifyCoefficient_effect (Coefficient.observe_key · _) id fun d _ => .observe m tag d
  | observeEquation place tag => exact .amends (.observe place tag)
  | notify place =>
      rw [execute, outcome_fst]
      exact .notifies place
  | solve place =>
      rw [execute, outcome_fst]
      rcases solveNow_cases s place with heq | ⟨hfree, heq⟩ <;> rw [heq]
      · exact .nothing trivial
      · exact .solves hfree
  | giveEvaluation place handed u => exact .amends (.give place handed u)
  | close => exact .closes

/-! ## Commands in a run -/

/-- The coefficients of some mentions registered one after the other. -/
def lookupAll (s : Session) (ms : List Mention) : Session := ms.foldl (fun s m => s.lookup m.key) s

theorem lookupAll_induction {P : Session → Prop} (hlookup : ∀ t k, P t → P (t.lookup k)) (h : P s)
    (ms : List Mention) : P (s.lookupAll ms) :=
  List.foldlRecOn ms _ h fun t ht m _ => hlookup t m.key ht

/-- In a run a command registers what it mentions, and then it has its effect. -/
theorem issue_effect (s : Session) (c : Command) : (s.lookupAll c.mentions).Effect c (s.issue c) :=
  execute_effect (s.lookupAll c.mentions) c

/-- **An invariant of all registrations, effects and turns.** -/
theorem Runs.preserves {P : Session → Prop} {allowed : Command → Prop} (hstart : P s)
    (hlookup : ∀ t k, P t → P (t.lookup k)) (heffect : ∀ t c t', allowed c → t.Effect c t' → P t → P t')
    (hturn : ∀ t place rest, t.pending = place :: rest → t.isHeldUp place = false → P t → P (t.turn place))
    (h : Runs s cs t) (hallowed : ∀ c ∈ cs, allowed c) : P t :=
  h.invariant hstart
    (fun t c hc ht => heffect _ c _ hc (issue_effect t c) (lookupAll_induction hlookup ht c.mentions))
    hturn hallowed

end Session

end TensorEquations
