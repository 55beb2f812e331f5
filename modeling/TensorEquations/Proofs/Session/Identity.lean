import TensorEquations.Proofs.Coefficient.Identity
import TensorEquations.Proofs.Equation.Consistency
import TensorEquations.Proofs.Equation.Mention
import TensorEquations.Proofs.Session.Scheduling

/-!
# One coefficient per identity

A session refers to coefficients in its commands and in the tags of its sources.

* `Command.Refers`, `References` — the mentions of a command and of several, in order. A source that is not read
  mentions nothing.
* `Session.Effect.keys`, `Session.turn_keys` — no coefficient is made by anything but a mention.
* `Session.issue_lists` — **a command registers what it refers to and has not been referred to before.**
* `Session.Runs.lists` — so the coefficients of a session are those that its commands refer to.
* `Session.one_coefficient_per_identity` — **two references are one coefficient exactly if they agree, a coefficient
  stays where it is, and each is counted once.**
-/

namespace TensorEquations

variable {cs ds : List Command} {c : Command} {code : String} {ms : List Mention} {ks : List CoefficientKey}

/-! ## References -/

/-- The coefficients that a command refers to. -/
inductive Command.Refers : Command → List Mention → Prop
  | source {code : String} {ms : List Mention} (h : Mentions code ms) : Refers (.addEquation code) ms
  | unread {code : String} {error : TagError × Nat} (h : parseEquation code = .error error) :
      Refers (.addEquation code) []
  | direct {c : Command} (h : ∀ code, c ≠ .addEquation code) : Refers c c.mentions

/-- The coefficients that commands refer to, one after the other. -/
inductive References : List Command → List Mention → Prop
  | nil : References [] []
  | cons {c : Command} {cs : List Command} {ms ms' : List Mention} (hc : c.Refers ms) (hcs : References cs ms') :
      References (c :: cs) (ms ++ ms')

theorem Command.exists_refers (c : Command) : ∃ ms, c.Refers ms := by
  by_cases hc : ∃ code, c = .addEquation code
  · obtain ⟨code, rfl⟩ := hc
    cases hparse : parseEquation code with
    | error error => exact ⟨[], .unread hparse⟩
    | ok reading =>
        obtain ⟨ms, hms⟩ := exists_mentions hparse
        exact ⟨ms, .source hms⟩
  · exact ⟨c.mentions, .direct fun code h => hc ⟨code, h⟩⟩

theorem exists_references : ∀ cs : List Command, ∃ ms, References cs ms
  | [] => ⟨[], .nil⟩
  | c :: cs => by
    obtain ⟨ms, hms⟩ := c.exists_refers
    obtain ⟨ms', hms'⟩ := exists_references cs
    exact ⟨ms ++ ms', .cons hms hms'⟩

theorem References.of_concat (h : References (cs ++ [c]) ms) :
    ∃ ms₁ ms₂, ms = ms₁ ++ ms₂ ∧ References cs ms₁ ∧ c.Refers ms₂ := by
  induction cs generalizing ms with
  | nil =>
      obtain _ | ⟨hc, hnil⟩ := h
      cases hnil
      exact ⟨[], _, List.append_nil _, .nil, hc⟩
  | cons d cs ih =>
      obtain _ | ⟨hd, hcs⟩ := h
      obtain ⟨ms₁, ms₂, rfl, hms₁, hc⟩ := ih hcs
      exact ⟨_, ms₂, (List.append_assoc ..).symm, .cons hd hms₁, hc⟩

/-! ## Operations that make no coefficient -/

namespace Registry

variable {r r' : Registry}

theorem keys_releaseAll : ∀ (ks : List CoefficientKey) {r : Registry}, (r.releaseAll ks).1.keys = r.keys
  | [], _ => rfl
  | k :: ks, r => by
    rw [releaseAll]
    cases r.find? k with
    | none => exact keys_releaseAll ks
    | some c => exact (keys_releaseAll ks).trans (keys_put _)

theorem keys_solveLocked (r : Registry) (e : Equation) : (r.solveLocked e).1.keys = r.keys := by
  have hevaluate : ∀ {r' outcome}, r.evaluate e = (r', outcome) → r'.keys = r.keys :=
    fun h => (congrArg (·.1.keys) h).symm.trans (keys_evaluate e)
  unfold solveLocked
  split
  · rename_i h
    exact hevaluate h
  · rename_i h
    split
    · rename_i hcarry
      exact (carryOut_ok e.nodup_acquisition hcarry).1.trans (hevaluate h)
    · exact hevaluate h

theorem keys_solve (r : Registry) (e : Equation) : (r.solve e).1.keys = r.keys := by
  rw [solve_fst, keys_releaseAll, keys_solveLocked, keys_lockAll]

end Registry

namespace Session

variable {s s' t : Session}

theorem solve_keys (s : Session) (place : Nat) : (s.solve place).1.registry.keys = s.registry.keys := by
  rcases solve_settles s place with ⟨heq, -⟩ | ⟨e, _, -, -, -, heq⟩ <;> rw [heq]
  exact Registry.keys_solve s.registry e

theorem turn_keys (s : Session) (place : Nat) : (s.turn place).registry.keys = s.registry.keys := solve_keys s place

/-- **No command but a new equation makes a coefficient**, once those that it mentions are there. -/
theorem Effect.keys (h : s.Effect c s') (hc : ∀ code, c ≠ .addEquation code) : s'.registry.keys = s.registry.keys := by
  cases h with
  | nothing | amends | closes => rfl
  | @adds e => exact absurd rfl (hc e.source)
  | completes =>
      rw [(announce_submits _ _ _).registry]
      exact Registry.keys_put _
  | changes => exact Registry.keys_put _
  | notifies place => rw [(notify_submits s place).registry]
  | solves => exact solve_keys s _

/-! ## Registration -/

theorem lookupAll_lists : ∀ {ms : List Mention} {s : Session} {ks : List CoefficientKey}, s.registry.Lists ks →
    (s.lookupAll ms).registry.Lists (ks ++ ms.map Mention.key)
  | [], _, ks, h => (List.append_nil ks).symm ▸ h
  | m :: ms, s, ks, h => by
    have hlookup : (s.lookup m.key).registry.Lists (ks ++ [m.key]) := h.register m.key
    have hrest : ((s.lookup m.key).lookupAll ms).registry.Lists (ks ++ [m.key] ++ ms.map Mention.key) :=
      lookupAll_lists hlookup
    rwa [List.append_assoc] at hrest

/-- A source that is not read changes nothing. -/
theorem issue_unread {error : TagError × Nat} (h : parseEquation code = .error error) (s : Session) :
    s.issue (.addEquation code) = s := by
  show ((outcome (s.addEquation code)).1) = s
  rw [outcome_fst, addEquation, h]

/-- The coefficients of an equation are those that its source mentions. If the equation is refused then it is ready,
and so they are there already. -/
theorem addEquation_lists (h : s.registry.Lists ks) (hms : Mentions code ms) :
    (s.addEquation code).1.registry.Lists (ks ++ ms.map Mention.key) := by
  obtain ⟨reading, hparse, hkeys⟩ := parseEquation_of_mentions hms
  obtain ⟨e, he⟩ : ∃ e : Equation, e = { source := code, reading := reading } := ⟨_, rfl⟩
  have hcoefficients : e.coefficients = (ms.map Mention.key).eraseDups := by
    rw [Equation.coefficients, he, hkeys]
  have hobserved : (s.registry.observeAll (.equation s.equations.length) e.coefficients).Lists
      (ks ++ ms.map Mention.key) := by
    rw [← Registry.lists_eraseDups, ← hcoefficients]
    exact h.observeAll
  unfold addEquation
  rw [hparse]
  simp only
  rw [← he]
  split
  · rename_i hrefused
    rw [Bool.and_eq_true] at hrefused
    refine h.append_of_subset fun k hk => h.mem_keys.mp ?_
    have hk' : k ∈ e.coefficients := by rwa [hcoefficients, List.mem_eraseDups]
    have hfinished := List.all_eq_true.mp hrefused.2 k hk'
    have hkeeps := Registry.keeps_observeAll (.equation s.equations.length) e.coefficients s.registry
    obtain ⟨c, hc, -⟩ := Registry.exists_of_isFinished ((hkeeps.finished k).symm.trans hfinished)
    exact Registry.mem_keys_iff.mpr ⟨c, hc⟩
  · exact hobserved.congr (congrArg Registry.keys (notify_submits _ _).registry)

/-- **A command registers what it refers to**, in order and behind what has been registered before. -/
theorem issue_lists (h : s.registry.Lists ks) (hc : c.Refers ms) :
    (s.issue c).registry.Lists (ks ++ ms.map Mention.key) := by
  cases hc with
  | source hms =>
      unfold issue
      rw [execute, outcome_fst]
      exact addEquation_lists h hms
  | unread herror =>
      rw [issue_unread herror]
      rwa [List.map_nil, List.append_nil]
  | direct hdirect => exact (lookupAll_lists h).congr ((issue_effect s c).keys hdirect)

/-- **The coefficients of a session are those that its commands refer to.** -/
theorem Runs.lists (h : Runs s cs t) (hs : s.registry.Lists ks) :
    ∀ {ms}, References cs ms → t.registry.Lists (ks ++ ms.map Mention.key) := by
  induction h with
  | start =>
      intro ms hms
      cases hms
      rwa [List.map_nil, List.append_nil]
  | command _ c ih =>
      intro ms hms
      obtain ⟨ms₁, ms₂, rfl, hms₁, hc⟩ := hms.of_concat
      rw [List.map_append, ← List.append_assoc]
      exact issue_lists (ih hms₁) hc
  | @turn cs t place rest _ _ _ ih => exact fun hms => (ih hms).congr (turn_keys t place)

/-- **One coefficient per identity.** The coefficients of a session are those that its commands and sources refer to,
each once and in the order of the first references, and each of them under its canonical key. Two references find one
coefficient exactly if they agree in their texts and, up to an exchange of the blocks, in their shapes; and whatever
happens later, a reference finds the same coefficient. A source that is not read changes nothing. -/
theorem one_coefficient_per_identity {configuration : Configuration} (hrun : Runs (start configuration) cs s) :
    (∃ ms, References cs ms) ∧
    (∀ ms, References cs ms → s.registry.keys = (ms.map Mention.key).eraseDups ∧
      (∀ m ∈ ms, ∀ m' ∈ ms, s.registry.place? m = s.registry.place? m' ↔ m.Agrees m') ∧
      ∀ m ∈ ms, ∃ place, s.registry.place? m = some place ∧
        ∀ ds t, Runs s ds t → t.registry.place? m = some place) ∧
    (∀ k ∈ s.registry.keys, k = .canonical k.shape k.id) ∧
    ∀ code error, parseEquation code = .error error → s.issue (.addEquation code) = s := by
  have hlists : ∀ {ms}, References cs ms → s.registry.Lists (ms.map Mention.key) :=
    fun hms => hrun.lists Registry.lists_empty hms
  have hmem : ∀ {ms}, References cs ms → ∀ m ∈ ms, m.key ∈ s.registry.keys :=
    fun hms m hm => (hlists hms).mem_keys.mpr (List.mem_map_of_mem hm)
  refine ⟨exists_references cs, fun ms hms => ⟨hlists hms, fun m hm m' _ => ?_, fun m hm => ?_⟩, fun k hk => ?_,
    fun code error herror => issue_unread herror s⟩
  · exact Registry.place?_eq_iff (hmem hms m hm)
  · obtain ⟨place, hplace⟩ := Registry.exists_place? (hmem hms m hm)
    refine ⟨place, hplace, fun ds t hlater => Registry.place?_of_grows ?_ hplace⟩
    obtain ⟨ms', hms'⟩ := exists_references ds
    exact (hlists hms).grows (hlater.lists (hlists hms) hms')
  · obtain ⟨ms, hms⟩ := exists_references cs
    obtain ⟨m, -, rfl⟩ := List.mem_map.mp ((hlists hms).mem_keys.mp hk)
    rw [Mention.key, CoefficientKey.canonical, CoefficientKey.canonical, BlockShape.canonical_canonical]

/-- A coefficient is looked up, mentioned by an equation and looked up again, with its blocks in either order. -/
theorem one_coefficient_per_identity_exchanged : ∃ (m m' : Mention) (s : Session), m ≠ m' ∧ Runs (start .planar)
      [.lookup m, .addEquation "#<b:0:0:0:0:\x7b\x7d> - #<a:1:0:2:1:\x7ba, b, c, d\x7d>", .lookup m'] s ∧
    s.registry.keys = [m'.key, ⟨⟨0, 0, 0, 0⟩, "b"⟩] ∧ s.registry.place? m = s.registry.place? m' ∧
    ∃ place, s.registry.place? m = some place ∧ ∀ ds t, Runs s ds t → t.registry.place? m = some place := by
  obtain ⟨m, hm⟩ : ∃ m : Mention, m = ⟨⟨1, 0, 2, 1⟩, "a"⟩ := ⟨_, rfl⟩
  obtain ⟨m', hm'⟩ : ∃ m' : Mention, m' = ⟨⟨2, 1, 1, 0⟩, "a"⟩ := ⟨_, rfl⟩
  obtain ⟨cs, hcs⟩ : ∃ cs : List Command, cs = [.lookup m,
    .addEquation "#<b:0:0:0:0:\x7b\x7d> - #<a:1:0:2:1:\x7ba, b, c, d\x7d>", .lookup m'] := ⟨_, rfl⟩
  obtain ⟨s, hs⟩ : ∃ s, s = cs.foldl issue (start .planar) := ⟨_, rfl⟩
  have hrun : Runs (start .planar) cs s := hs ▸ Runs.start.issueAll cs
  have hkeys : s.registry.keys = [m'.key, ⟨⟨0, 0, 0, 0⟩, "b"⟩] := by
    rw [hs, hcs, hm, hm']
    decide +kernel
  have hagrees : m.Agrees m' := by
    rw [hm, hm']
    exact ⟨rfl, .inr rfl⟩
  have hne : m ≠ m' := by
    rw [hm, hm']
    decide
  obtain ⟨ms, hms⟩ := Command.exists_refers
    (.addEquation "#<b:0:0:0:0:\x7b\x7d> - #<a:1:0:2:1:\x7ba, b, c, d\x7d>")
  have hlookup : ∀ m : Mention, (Command.lookup m).Refers [m] := fun m => .direct (by simp)
  have hreferences : References cs ([m] ++ (ms ++ ([m'] ++ []))) :=
    hcs ▸ .cons (hlookup m) (.cons hms (.cons (hlookup m') .nil))
  obtain ⟨-, hidentity, -⟩ := one_coefficient_per_identity hrun
  obtain ⟨-, hsame, hstays⟩ := hidentity _ hreferences
  exact ⟨m, m', s, hne, hcs ▸ hrun, hkeys, (hsame m (by simp) m' (by simp)).mpr hagrees, hstays m (by simp)⟩

end Session

end TensorEquations
