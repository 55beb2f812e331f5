import TensorEquations.Proofs.Equation.Standing
import TensorEquations.Proofs.Session.Announcement
import TensorEquations.Proofs.Session.Locking

/-!
# The completion of a coefficient

A coefficient is completed at most once, and its listeners are told so once.

* `Registry.listeners`, `Session.listenersTo` — the listeners of a coefficient, and those that some commands add.
* `Session.Rests`, `Session.Completes` — the two kinds of steps: no coefficient is completed, or one is.
* `Session.Step.rests_or_completes` — **every step of a run is of one of these kinds.**
* `Session.Runs.unheard` — as long as a coefficient is open its listeners hear nothing.
* `Session.Runs.completion` — what a run does to one coefficient.
* `Session.completed_once` — **the completions of every coefficient in every run.**
-/

namespace TensorEquations

/-! ## Steps at which no coefficient is completed -/

namespace Registry

/-- The listeners of a coefficient in the order of registration. -/
def listeners (r : Registry) (k : CoefficientKey) : List String :=
  (((r.find? k).map Coefficient.observers).getD []).filterMap Observer.tag?

/-- No coefficient is completed or gets a listener. -/
structure Rests (r r' : Registry) : Prop where
  finished : ∀ k, r'.isFinished k = r.isFinished k
  listeners : ∀ k, r'.listeners k = r.listeners k

variable {r r' r'' : Registry} {j k : CoefficientKey} {c : Coefficient}

theorem listeners_of_find? (hc : r.find? k = some c) : r.listeners k = c.observers.filterMap Observer.tag? := by
  rw [listeners, hc]
  rfl

theorem rests_refl (r : Registry) : r.Rests r := ⟨fun _ => rfl, fun _ => rfl⟩

theorem Rests.trans (h : r.Rests r') (h' : r'.Rests r'') : r.Rests r'' :=
  ⟨fun k => (h'.finished k).trans (h.finished k), fun k => (h'.listeners k).trans (h.listeners k)⟩

theorem Retains.rests (h : r.Retains r') : r.Rests r' where
  finished := h.isFinished
  listeners k := by
    have hobservers : ∀ r : Registry, (r.find? k).map Coefficient.observers = (r.standing? k).map Prod.fst := by
      intro r
      rw [standing?, Option.map_map]
      rfl
    unfold listeners
    rw [hobservers, hobservers, h k]

/-- A new coefficient is open and has no observer. -/
theorem rests_register (r : Registry) (k : CoefficientKey) : r.Rests (r.register k) where
  finished _ := apply_find?_register (·.any Coefficient.isFinished) rfl
  listeners _ :=
    apply_find?_register (fun c? => ((c?.map Coefficient.observers).getD []).filterMap Observer.tag?) rfl

theorem isFinished_observe (o : Observer) :
    (r.modify k fun c => c.observe o).isFinished j = r.isFinished j := by
  unfold isFinished
  rw [find?_modify (Coefficient.observe_key · o)]
  split
  · cases r.find? j <;> rfl
  · rfl

/-- An observer of a coefficient that there is. -/
theorem listeners_observe (o : Observer) (hc : r.find? k = some c) :
    (r.modify k fun c => c.observe o).listeners j = r.listeners j ++ if k = j then o.tag?.toList else [] := by
  unfold listeners
  rw [find?_modify (Coefficient.observe_key · o)]
  by_cases hj : j = k
  · subst hj
    rw [if_pos rfl, if_pos rfl, hc]
    simp only [Option.map_some, Option.getD_some, Coefficient.observe, List.filterMap_append]
    cases o <;> rfl
  · rw [if_neg hj, if_neg (Ne.symm hj), List.append_nil]

/-- Equations are observers, but no listeners. -/
theorem rests_observeAll (place : Nat) : ∀ (ks : List CoefficientKey) (r : Registry),
    r.Rests (r.observeAll (.equation place) ks)
  | [], r => rests_refl r
  | k :: ks, r => by
    obtain ⟨c, hc⟩ := exists_find?_register r k
    have hobserve : (r.register k).Rests ((r.register k).modify k fun c => c.observe (.equation place)) := by
      refine ⟨fun j => isFinished_observe _, fun j => ?_⟩
      rw [listeners_observe _ hc, Observer.tag?, Option.toList_none, ite_self, List.append_nil]
    exact ((rests_register r k).trans hobserve).trans (rests_observeAll place ks _)

end Registry

namespace Session

variable {s s' s'' t u v : Session} {cs ds : List Command} {d : Command} {j k : CoefficientKey} {c : Coefficient}
  {x y : Tensor}

/-- The listeners that some commands add to a coefficient. -/
def listenersTo (k : CoefficientKey) (cs : List Command) : List String :=
  cs.filterMap fun
    | .observeCoefficient m tag => if m.key = k then some tag else none
    | _ => none

theorem listenersTo_append (k : CoefficientKey) (cs ds : List Command) :
    listenersTo k (cs ++ ds) = listenersTo k cs ++ listenersTo k ds := List.filterMap_append

/-- No coefficient is completed and no listener of one is told; commands may add listeners. -/
structure Rests (s s' : Session) (ds : List Command) : Prop where
  heard : ∀ k, s'.heard k = s.heard k
  finished : ∀ k, s'.registry.isFinished k = s.registry.isFinished k
  listeners : ∀ k, s'.registry.listeners k = s.registry.listeners k ++ listenersTo k ds

theorem rests_of_registry (hregistry : s.registry.Rests s'.registry) (hheard : ∀ k, s'.heard k = s.heard k)
    (hds : ∀ k, listenersTo k ds = []) : s.Rests s' ds where
  heard := hheard
  finished := hregistry.finished
  listeners k := by rw [hds, List.append_nil, hregistry.listeners]

theorem Rests.trans (h : s.Rests s' cs) (h' : s'.Rests s'' ds) : s.Rests s'' (cs ++ ds) where
  heard k := (h'.heard k).trans (h.heard k)
  finished k := (h'.finished k).trans (h.finished k)
  listeners k := by rw [h'.listeners, h.listeners, listenersTo_append, List.append_assoc]

theorem rests_lookupAll (s : Session) (ms : List Mention) : s.Rests (s.lookupAll ms) [] := by
  refine lookupAll_induction (P := fun t => s.Rests t []) (fun t k ht => ?_) ?_ ms
  · have hlookup : t.Rests (t.lookup k) [] :=
      rests_of_registry (Registry.rests_register t.registry k) (fun _ => rfl) fun _ => rfl
    exact ht.trans hlookup
  · exact rests_of_registry (Registry.rests_refl _) (fun _ => rfl) fun _ => rfl

/-- Only the registry has changed, and no standing in it. -/
theorem rests_of_retains {r : Registry} (hr : s.registry.Retains r) (hds : ∀ k, listenersTo k ds = []) :
    s.Rests { s with registry := r } ds :=
  rests_of_registry hr.rests (fun _ => rfl) hds

theorem rests_of_eq (heq : s' = s) (hds : ∀ k, listenersTo k ds = []) : s.Rests s' ds := by
  subst heq
  exact rests_of_registry (Registry.rests_refl _) (fun _ => rfl) hds

theorem rests_notify (s : Session) (place : Nat) (hds : ∀ k, listenersTo k ds = []) :
    s.Rests (s.notify place).1 ds :=
  rests_of_registry ((notify_submits s place).registry ▸ Registry.rests_refl _)
    (heard_congr (notify_events s place)) hds

/-- The listeners of an equation are told of it only. -/
theorem rests_solve (s : Session) (place : Nat) : s.Rests (s.solve place).1 [] := by
  rcases solve_settles s place with ⟨heq, -⟩ | ⟨e, _, -, -, -, heq⟩
  · exact rests_of_eq heq fun _ => rfl
  · rw [heq]
    refine rests_of_registry (Registry.retains_solve _ e).rests (fun k => ?_) fun _ => rfl
    unfold heard
    rw [List.filterMap_append, List.filterMap_map]
    exact (congrArg _ (List.filterMap_eq_nil_iff.mpr fun _ _ => rfl)).trans (List.append_nil _)

/-- A listener of a coefficient that there is. -/
theorem rests_observe {m : Mention} (hc : s.registry.find? m.key = some c) (tag : String) :
    s.Rests (s.modifyCoefficient m.key fun c => c.observe (.listener tag)) [.observeCoefficient m tag] where
  heard _ := rfl
  finished _ := Registry.isFinished_observe _
  listeners k := by
    refine (Registry.listeners_observe (.listener tag) hc).trans (congrArg _ ?_)
    unfold listenersTo
    by_cases hk : m.key = k <;> simp [hk, Observer.tag?]

theorem listenersTo_of_ne (hd : ∀ m tag, d ≠ .observeCoefficient m tag) (k : CoefficientKey) :
    listenersTo k [d] = [] := by
  cases d with
  | observeCoefficient m tag => exact absurd rfl (hd m tag)
  | _ => rfl

/-- A command that completes no coefficient. -/
theorem Effect.rests (h : s.Effect d s') (hcomplete : ∀ m x, d ≠ .complete m x)
    (hgeneral : ∀ m name, d ≠ .completeGeneral m name)
    (hfound : ∀ m tag, d = .observeCoefficient m tag → ∃ c, s.registry.find? m.key = some c) : s.Rests s' [d] := by
  cases h with
  | nothing passes =>
    refine rests_of_eq rfl (listenersTo_of_ne ?_)
    rintro m tag rfl
    obtain ⟨c, hc⟩ := hfound m tag rfl
    exact nomatch hc.symm.trans passes
  | @adds e =>
    have happended : s.Rests { s with
        registry := s.registry.observeAll (.equation s.equations.length) e.coefficients
        equations := s.equations ++ [e] } [] :=
      rests_of_registry (Registry.rests_observeAll _ e.coefficients s.registry) (fun _ => rfl) fun _ => rfl
    exact happended.trans (rests_notify _ _ fun _ => rfl)
  | completes hands =>
    cases hands with
    | given => exact absurd rfl (hcomplete _ _)
    | general => exact absurd rfl (hgeneral _ _)
  | changes changed found =>
    rcases changed.retains_or_observes found with ⟨hd, hretains⟩ | ⟨m, tag, rfl, rfl, heq⟩
    · exact rests_of_retains hretains (listenersTo_of_ne hd)
    · rw [heq]
      exact rests_observe found tag
  | amends amended =>
    refine rests_of_registry (Registry.rests_refl _) (fun _ => rfl) fun _ => ?_
    cases amended <;> rfl
  | notifies place => exact rests_notify s place fun _ => rfl
  | @solves place =>
    have hcommand : Rests (s.solve place).1 (s.solve place).1 [.solve place] := rests_of_eq rfl fun _ => rfl
    exact (rests_solve s place).trans hcommand
  | closes => exact rests_of_registry (Registry.rests_refl _) (fun _ => rfl) fun _ => rfl

/-! ## Steps at which a coefficient is completed -/

/-- A command gives an open and free coefficient its final tensor. A coefficient that there is not yet is made. -/
structure Completes (s : Session) (d : Command) (k : CoefficientKey) (c : Coefficient) (x : Tensor) (s' : Session) :
    Prop where
  asked : (∃ m, m.key = k ∧ d = .complete m x) ∨ ∃ m name, m.key = k ∧ d = .completeGeneral m name
  found : (s.lookup k).registry.find? k = some c
  isOpen : c.isFinished = false
  free : c.isLocked = false
  rank : (x.rank : Int) = k.rank
  eq : s' = ((s.lookup k).complete k x).1

theorem complete_rests_or_completes (s : Session) {m : Mention} {d : Command}
    (hasked : d = .complete m x ∨ ∃ name, d = .completeGeneral m name) :
    s.Rests ((s.lookup m.key).complete m.key x).1 [d] ∨
      ∃ c, s.Completes d m.key c x ((s.lookup m.key).complete m.key x).1 := by
  have hds : ∀ k, listenersTo k [d] = [] := by
    rcases hasked with rfl | ⟨name, rfl⟩ <;> exact fun _ => rfl
  rcases complete_cases (s.lookup m.key) m.key x with heq | ⟨c, c', hc, hfree, hcomplete, -⟩
  · rw [heq]
    exact .inl (rests_of_registry (Registry.rests_register s.registry m.key) (fun _ => rfl) hds)
  · obtain ⟨hrank, hopen, -⟩ := Coefficient.complete_ok hcomplete
    rw [Registry.key_of_find? hc] at hrank
    exact .inr ⟨c, hasked.imp (fun h => ⟨m, rfl, h⟩) (fun ⟨name, h⟩ => ⟨m, name, rfl, h⟩), hc, hopen, hfree, hrank, rfl⟩

/-- **Every step is of one of the two kinds.** -/
theorem Step.rests_or_completes (h : s.Step ds s') :
    s.Rests s' ds ∨ ∃ d k c x, ds = [d] ∧ s.Completes d k c x s' := by
  cases h with
  | command d =>
    by_cases hcomplete : ∃ m x, d = .complete m x
    · obtain ⟨m, x, rfl⟩ := hcomplete
      have hissue : s.issue (.complete m x) = ((s.lookup m.key).complete m.key x).1 := outcome_fst _
      rw [hissue]
      exact (complete_rests_or_completes s (.inl rfl)).imp_right fun ⟨c, hc⟩ => ⟨_, _, c, x, rfl, hc⟩
    by_cases hgeneral : ∃ m name, d = .completeGeneral m name
    · obtain ⟨m, name, rfl⟩ := hgeneral
      have hissue : s.issue (.completeGeneral m name) = ((s.lookup m.key).completeGeneral m.key name).1 :=
        outcome_fst _
      rw [hissue]
      rcases completeGeneral_cases (s.lookup m.key) m.key name with heq | ⟨x, -, heq⟩ <;> rw [heq]
      · exact .inl (rests_of_registry (Registry.rests_register s.registry m.key) (fun _ => rfl) fun _ => rfl)
      · exact (complete_rests_or_completes s (.inr ⟨name, rfl⟩)).imp_right fun ⟨c, hc⟩ => ⟨_, _, c, x, rfl, hc⟩
    · refine .inl ((rests_lookupAll s d.mentions).trans ((issue_effect s d).rests ?_ ?_ ?_))
      · exact fun m x heq => hcomplete ⟨m, x, heq⟩
      · exact fun m name heq => hgeneral ⟨m, name, heq⟩
      · rintro m tag rfl
        exact Registry.exists_find?_register s.registry m.key
  | @turn place rest hp hfree =>
    have hsolve := rests_solve s place
    exact .inl ⟨hsolve.heard, hsolve.finished, hsolve.listeners⟩

namespace Completes

/-- A command that completes a coefficient adds no listener. -/
theorem listenersTo_eq (h : s.Completes d k c x s') (j : CoefficientKey) : listenersTo j [d] = [] := by
  rcases h.asked with ⟨m, -, rfl⟩ | ⟨m, name, -, rfl⟩ <;> rfl

theorem finished (h : s.Completes d k c x s') : ∃ y, y.labels = k.labels ∧ y.SameComponents x ∧
    (s.lookup k).Finished k c y ((s.lookup k).complete k x) := by
  obtain ⟨y, hlabels, hsame, heq⟩ := complete_first h.found h.free h.isOpen h.rank
  exact ⟨y, hlabels, hsame, heq ▸ finished_announce h.found y⟩

/-- The coefficient is open before the command and finished after it. -/
theorem isFinished (h : s.Completes d k c x s') :
    s.registry.isFinished k = false ∧ s'.registry.isFinished k = true := by
  obtain ⟨y, -, -, hfinished⟩ := h.finished
  have hlookup : (s.lookup k).registry.isFinished k = s.registry.isFinished k :=
    (Registry.rests_register s.registry k).finished k
  rw [← hlookup, Registry.isFinished_of_find? h.found, h.eq, Registry.isFinished_of_find? hfinished.coefficient]
  exact ⟨h.isOpen, rfl⟩

theorem listeners (h : s.Completes d k c x s') : c.observers.filterMap Observer.tag? = s.registry.listeners k := by
  rw [← Registry.listeners_of_find? h.found]
  exact (Registry.rests_register s.registry k).listeners k

/-- Another coefficient stays as it is. -/
theorem others (h : s.Completes d k c x s') (hj : j ≠ k) : s'.registry.isFinished j = s.registry.isFinished j ∧
    s'.registry.listeners j = s.registry.listeners j ∧ s'.heard j = s.heard j := by
  obtain ⟨y, -, -, hfinished⟩ := h.finished
  obtain ⟨hfind, hheard⟩ := hfinished.others j hj
  have hregister := Registry.rests_register s.registry k
  rw [← h.eq] at hfind hheard
  refine ⟨Eq.trans ?_ (hregister.finished j), Eq.trans ?_ (hregister.listeners j), hheard⟩
  · exact congrArg (Option.any Coefficient.isFinished) hfind
  · exact congrArg (fun found => ((Option.map Coefficient.observers found).getD []).filterMap Observer.tag?) hfind

end Completes

/-! ## Closed sessions -/

theorem solve_isClosed (s : Session) (place : Nat) : (s.solve place).1.isClosed = s.isClosed := by
  unfold solve
  split
  · rfl
  · split <;> rfl

/-- Only one command closes a session. -/
theorem Effect.isClosed (h : s.Effect d s') (hd : d ≠ .close) : s'.isClosed = s.isClosed := by
  cases h with
  | nothing | changes | amends => rfl
  | adds => exact (notify_submits _ _).isClosed
  | completes => exact (announce_submits _ _ _).isClosed
  | notifies place => exact (notify_submits s place).isClosed
  | solves => exact solve_isClosed s _
  | closes => exact absurd rfl hd

/-- **A session stays open until it is closed**, so no observer fails before. -/
theorem Runs.isOpen {configuration : Configuration} (h : Runs (Session.start configuration) cs t)
    (hcs : .close ∉ cs) : t.isClosed = false := by
  have hallowed : ∀ d ∈ cs, d ≠ .close := fun d hd heq => hcs (heq ▸ hd)
  exact h.preserves (P := fun t => t.isClosed = false) rfl (fun _ _ ht => ht)
    (fun _ _ _ hd heffect ht => (heffect.isClosed hd).trans ht)
    (fun t place _ _ _ ht => (solve_isClosed t place).trans ht) hallowed

/-! ## One coefficient in a run -/

/-- What a step does to a coefficient. -/
theorem Step.coefficient (h : s.Step ds s') (k : CoefficientKey) :
    (s'.registry.isFinished k = s.registry.isFinished k ∧
      s'.registry.listeners k = s.registry.listeners k ++ listenersTo k ds ∧ s'.heard k = s.heard k) ∨
    ∃ d c x, ds = [d] ∧ s.Completes d k c x s' := by
  rcases h.rests_or_completes with hrests | ⟨d, j, c, x, rfl, hcompletes⟩
  · exact .inl ⟨hrests.finished k, hrests.listeners k, hrests.heard k⟩
  · by_cases hk : k = j
    · subst hk
      exact .inr ⟨d, c, x, rfl, hcompletes⟩
    · obtain ⟨hfinished, hlisteners, hheard⟩ := hcompletes.others hk
      refine .inl ⟨hfinished, ?_, hheard⟩
      rw [hcompletes.listenersTo_eq, List.append_nil, hlisteners]

/-- **As long as a coefficient is open its listeners hear nothing**, and they are those that commands have added. -/
theorem Runs.unheard {configuration : Configuration} (h : Runs (Session.start configuration) cs t)
    (k : CoefficientKey) (hopen : t.registry.isFinished k = false) :
    t.heard k = [] ∧ t.registry.listeners k = listenersTo k cs := by
  refine h.induction (P := fun cs t => t.registry.isFinished k = false →
    t.heard k = [] ∧ t.registry.listeners k = listenersTo k cs) (fun _ => ⟨rfl, rfl⟩) ?_ hopen
  intro cs s ds s' _ hstep ih hopen'
  rcases hstep.coefficient k with ⟨hfinished, hlisteners, hheard⟩ | ⟨d, c, x, -, hcompletes⟩
  · obtain ⟨hnothing, hcommands⟩ := ih (hfinished.symm.trans hopen')
    exact ⟨hheard.trans hnothing, by rw [hlisteners, hcommands, listenersTo_append]⟩
  · exact absurd (hcompletes.isFinished.2.symm.trans hopen') (nomatch ·)

/-- The step of a run at which a coefficient is completed. Its listeners hear nothing more after it. -/
structure CompletedAt (s : Session) (k : CoefficientKey) (cs : List Command) (t : Session) (cs₁ : List Command)
    (d : Command) (cs₂ : List Command) (u v : Session) (c : Coefficient) (x : Tensor) : Prop where
  commands : cs = cs₁ ++ [d] ++ cs₂
  before : Runs s cs₁ u
  completes : u.Completes d k c x v
  after : Runs v cs₂ t
  heard : t.heard k = v.heard k

/-- **What a run does to one coefficient**: it is completed at one step, or at none and nothing is heard of it. -/
theorem Runs.completion (h : Runs s cs t) (k : CoefficientKey) :
    (t.registry.isFinished k = s.registry.isFinished k ∧ t.heard k = s.heard k) ∨
      (s.registry.isFinished k = false ∧ t.registry.isFinished k = true ∧
        ∃ cs₁ d cs₂ u v c x, CompletedAt s k cs t cs₁ d cs₂ u v c x) := by
  refine h.induction (P := fun cs t =>
    (t.registry.isFinished k = s.registry.isFinished k ∧ t.heard k = s.heard k) ∨
      (s.registry.isFinished k = false ∧ t.registry.isFinished k = true ∧
        ∃ cs₁ d cs₂ u v c x, CompletedAt s k cs t cs₁ d cs₂ u v c x)) (.inl ⟨rfl, rfl⟩) ?_
  intro cs t ds t' hrun hstep hcourse
  rcases hstep.coefficient k with ⟨hfinished, -, hheard⟩ | ⟨d, c, x, rfl, hcompletes⟩
  · rcases hcourse with ⟨hsame, hnothing⟩ | ⟨hopen, hdone, cs₁, d, cs₂, u, v, c, x, hat⟩
    · exact .inl ⟨hfinished.trans hsame, hheard.trans hnothing⟩
    · refine .inr ⟨hopen, hfinished.trans hdone, cs₁, d, cs₂ ++ ds, u, v, c, x, ?_⟩
      exact ⟨by rw [hat.commands, List.append_assoc, List.append_assoc], hat.before, hat.completes,
        hat.after.step hstep, hheard.trans hat.heard⟩
  · obtain ⟨hopen, hdone⟩ := hcompletes.isFinished
    rcases hcourse with ⟨hsame, -⟩ | ⟨-, hfinished, -⟩
    · refine .inr ⟨hsame.symm.trans hopen, hdone, cs, d, [], t, t', c, x, ?_⟩
      exact ⟨(List.append_nil _).symm, hrun, hcompletes, .start, rfl⟩
    · exact absurd (hfinished.symm.trans hopen) (nomatch ·)

/-- A finished coefficient is not completed, whether it is held or not. -/
theorem complete_of_isFinished (h : s.registry.isFinished k = true) (x : Tensor) : (s.complete k x).1 = s := by
  rcases complete_cases s k x with heq | ⟨c, c', hc, -, hcomplete, -⟩
  · exact heq
  · rw [Registry.isFinished_of_find? hc, (Coefficient.complete_frame hcomplete).2.1] at h
    cases h

/-- **A coefficient is completed at most once, and each completion is announced once.** In every state of a run, and
for every coefficient that the caller does not hold: if the coefficient is open, a tensor of its rank is stored under
the labels of the coefficient, and with the coefficient finished and free the observers that it has are told one after
the other, the listeners among them for the first time. A tensor of another rank and a further one are refused and
change nothing. From this state on, as long as the coefficient is open its listeners hear nothing. Once it is finished
it stays so, no completion changes anything, and its listeners hear nothing more. In between there is one command that
completes it: each listener that has been registered before this command hears of it once, in the order of
registration, and no later one does. That an observer fails is excluded where they are told; none does before the
session is closed. -/
theorem completed_once {configuration : Configuration} {before : List Command}
    (hbefore : Runs (start configuration) before s) (hrun : Runs s cs t) (hc : s.registry.find? k = some c) :
    (¬ HeldBy before k → c.isLocked = false ∧ ∀ x : Tensor,
      (c.isFinished = false → (x.rank : Int) = k.rank → s.heard k = [] ∧
        ∃ y, y.labels = k.labels ∧ y.SameComponents x ∧ s.Finished k c y (s.complete k x) ∧
          (.close ∉ before → ∀ o ∈ c.observers, (s.putCoefficient (c.finish y)).Reaches o)) ∧
      (c.isFinished = true → (x.rank : Int) = k.rank →
        s.complete k x = (s, some (.coefficient (.alreadyFinished k.name)))) ∧
      ((x.rank : Int) ≠ k.rank →
        s.complete k x = (s, some (.coefficient (.shape (.coefficientRank k.name k.rank x.rank)))))) ∧
    (t.registry.isFinished k = false → t.heard k = []) ∧
    (c.isFinished = true → t.registry.isFinished k = true ∧ t.heard k = s.heard k ∧
      ∀ x, (t.complete k x).1 = t) ∧
    (c.isFinished = false → t.registry.isFinished k = true → ∃ cs₁ d cs₂ u v c' x y,
      CompletedAt s k cs t cs₁ d cs₂ u v c' x ∧ y.labels = k.labels ∧ y.SameComponents x ∧
        (u.lookup k).Finished k c' y ((u.lookup k).complete k x) ∧
        (.close ∉ before ++ cs₁ ∨ (∀ o ∈ c'.observers, ((u.lookup k).putCoefficient (c'.finish y)).Reaches o) →
          t.heard k = listenersTo k (before ++ cs₁))) := by
  have hstate := Registry.isFinished_of_find? hc
  refine ⟨fun hheld => ?_, fun hopen => ((hbefore.trans hrun).unheard k hopen).1, fun hf => ?_, fun hf hdone => ?_⟩
  · have hfree : c.isLocked = false := by
      rw [← Registry.isLocked_of_find? hc, Bool.eq_false_iff]
      exact fun h => hheld ((hbefore.isLocked_iff k).mp h)
    refine ⟨hfree, fun x => ⟨fun hopen hrank => ?_, complete_again hc hfree, complete_rank hc⟩⟩
    obtain ⟨y, hlabels, hsame, heq⟩ := complete_first hc hfree hopen hrank
    exact ⟨(hbefore.unheard k (hstate.trans hopen)).1, y, hlabels, hsame, heq ▸ finished_announce hc y,
      fun hclose o _ => reaches_of_open (s := s.putCoefficient (c.finish y)) (hbefore.isOpen hclose) o⟩
  · rcases hrun.completion k with ⟨hsame, hnothing⟩ | ⟨hopen, -⟩
    · have hdone := hsame.trans (hstate.trans hf)
      exact ⟨hdone, hnothing, complete_of_isFinished hdone⟩
    · exact absurd (hf.symm.trans (hstate.symm.trans hopen)) (nomatch ·)
  · rcases hrun.completion k with ⟨hsame, -⟩ | ⟨-, -, cs₁, d, cs₂, u, v, c', x, hat⟩
    · exact absurd (hdone.symm.trans (hsame.trans (hstate.trans hf))) (nomatch ·)
    · obtain ⟨y, hlabels, hsame, hfinished⟩ := hat.completes.finished
      have hcompletion := hbefore.trans hat.before
      refine ⟨cs₁, d, cs₂, u, v, c', x, y, hat, hlabels, hsame, hfinished, fun hreaches => ?_⟩
      have htold := hfinished.told (hreaches.elim (fun hclose o _ =>
        reaches_of_open (s := (u.lookup k).putCoefficient (c'.finish y)) (hcompletion.isOpen hclose) o) id)
      obtain ⟨hnothing, hcommands⟩ := hcompletion.unheard k hat.completes.isFinished.1
      have hlookup : (u.lookup k).heard k = u.heard k := rfl
      rw [hat.heard, hat.completes.eq, htold.2, hlookup, hnothing, hat.completes.listeners, hcommands,
        List.nil_append]

/-- A vector with a listener and an equation gets a scalar in vain, a vector, another listener and one more vector. -/
theorem completed_once_vector : ∃ (m : Mention) (before cs : List Command) (s t : Session) (c : Coefficient)
    (x y : Tensor), Runs (start .planar) before s ∧ Runs s cs t ∧ s.registry.find? m.key = some c ∧
    c.observers = [.listener "early", .equation 0] ∧ x.labels = ["p"] ∧ y.labels = ["a"] ∧ y.SameComponents x ∧
    (s.complete m.key x).2 = none ∧ (s.complete m.key x).1.heard m.key = ["early"] ∧
    t.registry.isFinished m.key = true ∧ listenersTo m.key cs = ["late"] ∧
    ∃ cs₁ cs₂, cs = cs₁ ++ cs₂ ∧ t.heard m.key = ["early"] ++ listenersTo m.key cs₁ := by
  obtain ⟨m, hm⟩ : ∃ m : Mention, m = ⟨⟨1, 0, 0, 0⟩, "v"⟩ := ⟨_, rfl⟩
  obtain ⟨w, hw⟩ : ∃ w : Tensor, w = .ofFunction [] List.nodup_nil 2 fun _ => .rational 1 := ⟨_, rfl⟩
  obtain ⟨x, hx⟩ : ∃ x : Tensor, x = .ofFunction ["p"] (List.nodup_singleton _) 2 fun index => .rational index.sum :=
    ⟨_, rfl⟩
  obtain ⟨before, hbefore⟩ : ∃ before : List Command, before = [.observeCoefficient m "early",
    .addEquation "#<v:1:0:0:0:\x7bp\x7d>", .complete m w] := ⟨_, rfl⟩
  obtain ⟨cs, hcs⟩ : ∃ cs : List Command, cs = [.complete m x, .observeCoefficient m "late", .complete m x] := ⟨_, rfl⟩
  obtain ⟨s, hs⟩ : ∃ s, s = before.foldl issue (start .planar) := ⟨_, rfl⟩
  obtain ⟨t, ht⟩ : ∃ t, t = cs.foldl issue s := ⟨_, rfl⟩
  have hfirst : Runs (start .planar) before s := hs ▸ Runs.start.issueAll before
  have hrun : Runs s cs t := ht ▸ Runs.start.issueAll cs
  have hchecked : (s.registry.find? m.key).any (fun c => !c.isFinished &&
      c.observers == [.listener "early", .equation 0]) = true ∧ t.registry.isFinished m.key = true := by
    rw [ht, hs, hbefore, hcs, hm, hw, hx]
    decide +kernel
  obtain ⟨c, hc, h⟩ := (Option.any_eq_true _ _).mp hchecked.1
  rw [Bool.and_eq_true, Bool.not_eq_true', beq_iff_eq] at h
  obtain ⟨hfree, -, -, hdone⟩ := completed_once hfirst hrun hc
  have hheld : ¬ HeldBy before m.key := by
    rintro ⟨_, n, _, heq, -⟩
    have hlock : .lock n ∈ before := heq ▸ List.mem_append_right _ List.mem_cons_self
    simp [hbefore] at hlock
  have hrank : (x.rank : Int) = m.key.rank := by rw [hx, hm]; rfl
  obtain ⟨hnothing, y, hlabels, hsame, hfinished, hreaches⟩ := ((hfree hheld).2 x).1 h.1 hrank
  obtain ⟨heq, hheard⟩ := hfinished.told (hreaches (by simp [hbefore]))
  obtain ⟨cs₁, d, cs₂, u, v, c', x', y', hat, -, -, -, htold⟩ := hdone h.1 hchecked.2
  have hclose : .close ∉ before ++ cs₁ := fun hmem => by
    have hall : .close ∈ before ++ cs := by
      rw [hat.commands, List.append_assoc, ← List.append_assoc]
      exact List.mem_append_left _ hmem
    simp [hbefore, hcs] at hall
  refine ⟨m, before, cs, s, t, c, x, y, hfirst, hrun, hc, h.2, ?_, ?_, hsame, ?_, ?_, hchecked.2, ?_, cs₁,
    [d] ++ cs₂, ?_, ?_⟩
  · rw [hx]
    rfl
  · rw [hlabels, hm]
    decide
  · rw [heq]
  · rw [hheard, hnothing, h.2]
    rfl
  · simp [hcs, listenersTo]
  · rw [hat.commands, List.append_assoc]
  · rw [htold (.inl hclose), listenersTo_append, hbefore]
    simp [listenersTo]

end Session

end TensorEquations
