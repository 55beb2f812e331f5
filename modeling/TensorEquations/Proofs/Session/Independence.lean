import TensorEquations.Proofs.Coefficient.Unknown
import TensorEquations.Proofs.Equation.Independence
import TensorEquations.Proofs.Session.Persistence

/-!
# Groups of coefficients

Coefficients that are completed with their own general tensors have nothing to do with each other until an
equation mentions both of them, as long as their components have different names.

* `CoefficientKey.groupUnknowns` — the symbols of all coefficients of a group.
* `Command.IsWithin` — the commands that complete coefficients of two groups with their own general tensors
  and create equations within one of the groups.
* `Session.Separates` — the coefficients of one group are in symbols of their own.
* `Session.Separates.effect`, `Session.Separates.solve`, `Session.Runs.separates` — **every step keeps this.**
* `Session.unknowns_independent` — **coefficients have symbols of their own exactly if neither shadows the
  other; then no equation on the coefficients of one group rewrites one of the other.**
* `Session.unknowns_shared` — a coefficient that shadows another one is rewritten with it.
-/

namespace TensorEquations

namespace CoefficientKey

variable {dimension : Nat} {j k : CoefficientKey} {t : Tensor}

theorem general_isOver (h : Tensor.general k.labels dimension k.name = .ok t) :
    t.IsOver (k.unknowns dimension) := fun s hs =>
  ⟨Tensor.general_isPolynomial h s hs, fun _ hn =>
    (mem_symbols_iff h).mp (Tensor.mem_symbols.mpr ⟨s, hs, Scalar.mem_symbols_of_mem_vars hn⟩)⟩

/-- The symbols of all coefficients of a group. -/
def groupUnknowns (dimension : Nat) (G : Set CoefficientKey) : Set String :=
  {n | ∃ j ∈ G, n ∈ j.unknowns dimension}

/-- Every coefficient of two independent groups has its unknowns on its own side. -/
theorem unknowns_subset_side {G H : Set CoefficientKey}
    (hgroups : ∀ j ∈ G, ∀ k ∈ H, AreIndependent dimension j k) (hk : k ∈ G ∨ k ∈ H) :
    k.unknowns dimension ⊆ side (groupUnknowns dimension G) G k := by
  rcases hk with hk | hk
  · rw [side_of_mem hk]
    exact fun n hn => ⟨k, hk, hn⟩
  · rw [side_of_notMem fun hG => (hgroups k hG k hk).names rfl]
    rintro n hn ⟨j, hj, hnj⟩
    exact Set.disjoint_left.mp (hgroups j hj k hk).disjoint hnj hn

end CoefficientKey

open CoefficientKey (AreIndependent Shadows groupUnknowns side unknowns_subset_side)

/-- Commands on two groups of coefficients: each is completed with its own general tensor, and no equation
mentions coefficients of both. -/
def Command.IsWithin (G H : Set CoefficientKey) : Command → Prop
  | .addEquation code => ∀ reading, parseEquation code = .ok reading →
      (∀ tag ∈ reading.tags, tag.key ∈ G) ∨ ∀ tag ∈ reading.tags, tag.key ∈ H
  | .completeGeneral m name => name = "" ∧ (m.key ∈ G ∨ m.key ∈ H)
  | .complete _ _ => False
  | .setTensor _ _ => False
  | .applyOrDefer _ _ => False
  | .giveEvaluation _ _ _ => False
  | _ => True

namespace Command

variable {G H : Set CoefficientKey} {B : Set String} {c : Command} {k : CoefficientKey} {d d' : Coefficient}

theorem IsWithin.isPlain (h : c.IsWithin G H) : c.IsPlain := by
  cases c with
  | complete _ _ | setTensor _ _ | applyOrDefer _ _ | giveEvaluation _ _ _ => exact h.elim
  | _ => trivial

theorem Changes.isConfined (h : c.Changes k d d') (hc : c.IsWithin G H) (hd : d.IsConfined B) : d'.IsConfined B := by
  cases h with
  | setTensor | applyOrDefer => exact hc.elim
  | lock => exact hd.lock
  | unlock => exact hd.unlock
  | observe => exact hd.observe _

end Command

/-- An equation that mentions coefficients of one of two independent groups only. -/
theorem Equation.isOneSided {dimension : Nat} {G H : Set CoefficientKey}
    (hgroups : ∀ j ∈ G, ∀ k ∈ H, AreIndependent dimension j k) {e : Equation}
    (h : (∀ tag ∈ e.reading.tags, tag.key ∈ G) ∨ ∀ tag ∈ e.reading.tags, tag.key ∈ H) : e.IsOneSided G := by
  have hmem : ∀ k ∈ e.coefficients, ∃ tag ∈ e.reading.tags, tag.key = k := by
    intro k hk
    rwa [coefficients, List.mem_eraseDups, List.mem_map] at hk
  rcases h with htags | htags
  · refine .inl fun k hk => ?_
    obtain ⟨tag, htag, rfl⟩ := hmem k hk
    exact htags tag htag
  · refine .inr fun k hk hG => ?_
    obtain ⟨tag, htag, rfl⟩ := hmem k hk
    exact (hgroups _ hG _ (htags tag htag)).names rfl

namespace Session

variable {d : Nat} {A : Set String} {G H : Set CoefficientKey} {s s' t : Session} {cs : List Command}
  {place : Nat} {k : CoefficientKey}

/-! ## What every step keeps -/

/-- The coefficients of a group are in given symbols and all others in other ones, and every equation is about
one side. -/
structure Separates (d : Nat) (A : Set String) (G : Set CoefficientKey) (s : Session) : Prop where
  dimension : s.configuration.dimension = d
  registry : s.registry.IsSeparated A G
  sides : ∀ e ∈ s.equations, e.IsOneSided G

theorem separates_start (configuration : Configuration) (A : Set String) (G : Set CoefficientKey) :
    (Session.start configuration).Separates configuration.dimension A G :=
  ⟨rfl, fun _ hc => (nomatch hc), fun _ he => (nomatch he)⟩

namespace Separates

/-- A step that brings no equation in. -/
theorem keeps (h : s.Separates d A G) (hconfiguration : s'.configuration = s.configuration)
    (hr : s'.registry.IsSeparated A G)
    (he : ∀ e' ∈ s'.equations, ∃ e ∈ s.equations, e'.reading = e.reading) : s'.Separates d A G where
  dimension := hconfiguration ▸ h.dimension
  registry := hr
  sides e' he' := by
    obtain ⟨e, hmem, hreading⟩ := he e' he'
    exact (h.sides e hmem).congr hreading

/-- A step that leaves the equations alone. -/
theorem keeps_registry (h : s.Separates d A G) (hr : s'.registry.IsSeparated A G)
    (hconfiguration : s'.configuration = s.configuration) (he : s'.equations = s.equations) :
    s'.Separates d A G := h.keeps hconfiguration hr fun e hmem => ⟨e, he ▸ hmem, rfl⟩

theorem submits (h : s.Separates d A G) (hs : s.Submits s') : s'.Separates d A G := by
  refine h.keeps hs.configuration (hs.registry.symm ▸ h.registry) fun e' he' => ?_
  obtain ⟨i, hi⟩ := List.getElem?_of_mem he'
  obtain ⟨e, he, hsubmitted, -⟩ := hs.equations i e' hi
  exact ⟨e, List.mem_of_getElem? he, hsubmitted.reading⟩

/-- Another coefficient in the place of one. -/
theorem put (h : s.Separates d A G) {c' : Coefficient} (hc' : c'.IsConfined (side A G c'.key)) :
    Session.Separates d A G { s with registry := s.registry.put c' } :=
  h.keeps_registry (Registry.forall_put h.registry hc') rfl rfl

/-- An equation on one side is added. -/
theorem append (h : s.Separates d A G) {e : Equation} (he : e.IsOneSided G) (o : Observer) :
    Session.Separates d A G { s with
      registry := s.registry.observeAll o e.coefficients
      equations := s.equations ++ [e] } := by
  refine ⟨h.dimension, ?_, fun e' he' => ?_⟩
  · exact Registry.forall_observeAll (P := fun c => c.IsConfined (side A G c.key)) (fun k => .open_coefficient k)
      (fun c hc => hc.observe _) e.coefficients h.registry
  · rcases List.mem_append.mp he' with hold | hnew
    · exact h.sides e' hold
    · obtain rfl := List.mem_singleton.mp hnew
      exact he

/-- **A solve.** The equation is on one side. -/
theorem solve (h : s.Separates d A G) (hs : s.Persists) (hfree : s.isHeldUp place = false) :
    (s.solve place).1.Separates d A G := by
  rcases solve_settles s place with ⟨heq, -⟩ | ⟨e, _, he, -, -, heq⟩ <;> rw [heq]
  · exact h
  have hmem := List.mem_of_getElem? he
  have hblocked := isBlocked_of_isHeldUp hfree he
  have hregistry := h.registry.solve hs.registry hblocked (hs.given e hmem) (h.sides e hmem)
  refine h.keeps rfl hregistry fun e' he' => ?_
  rcases List.mem_or_eq_of_mem_set he' with hold | rfl
  · exact ⟨e', hold, rfl⟩
  · exact ⟨e, hmem, rfl⟩

/-- **A command within the two groups.** -/
theorem effect (h : s.Separates d (groupUnknowns d G) G) (hs : s.Persists)
    (hgroups : ∀ j ∈ G, ∀ k ∈ H, AreIndependent d j k) {c : Command} (heffect : s.Effect c s')
    (hc : c.IsWithin G H) : s'.Separates d (groupUnknowns d G) G := by
  cases heffect with
  | nothing => exact h
  | @adds e reading => exact (h.append (Equation.isOneSided hgroups (hc _ reading)) _).submits (notify_submits _ _)
  | @completes _ _ t _ _ hands found _ completed =>
      cases hands with
      | given => exact hc.elim
      | @general m _ _ made =>
          obtain ⟨rfl, hgroup⟩ := hc
          rw [h.dimension] at made
          have hover : t.IsOver (side (groupUnknowns d G) G m.key) := fun x hx =>
            (CoefficientKey.general_isOver made x hx).mono (unknowns_subset_side hgroups hgroup)
          have hkey := Registry.key_of_find? found
          refine (h.put ?_).submits (announce_submits _ _ _)
          rw [(Coefficient.complete_frame completed).1, hkey]
          exact (h.registry.find? found).complete hover (Tensor.general_expand made)
            ((Tensor.general_labels made).trans (congrArg _ hkey.symm)) completed
  | changes changed found =>
      refine h.put ?_
      rw [changed.key]
      exact changed.isConfined hc (h.registry _ (Registry.mem_of_find? found))
  | amends amended =>
      cases amended with
      | give => exact hc.elim
      | observe place tag =>
          refine h.keeps rfl h.registry fun e' he' => ?_
          obtain ⟨i, hi⟩ := List.getElem?_of_mem he'
          obtain ⟨e, he, heq⟩ := observeEquation_equations hi
          exact ⟨e, List.mem_of_getElem? he, by rw [heq]⟩
  | notifies place => exact h.submits (notify_submits s place)
  | solves free => exact h.solve hs free
  | closes => exact h.keeps_registry h.registry rfl rfl

theorem lookup (h : s.Separates d A G) (k : CoefficientKey) : (s.lookup k).Separates d A G :=
  h.keeps_registry (Registry.forall_register h.registry (.open_coefficient k)) rfl rfl

end Separates

/-- **In all states of a run within two independent groups these are separated.** -/
theorem Runs.separates {configuration : Configuration} (h : Runs (Session.start configuration) cs t)
    (hgroups : ∀ j ∈ G, ∀ k ∈ H, AreIndependent configuration.dimension j k) (hcs : ∀ c ∈ cs, c.IsWithin G H) :
    t.Persists ∧ t.Separates configuration.dimension (groupUnknowns configuration.dimension G) G :=
  -- A solve keeps the groups apart only if the tensors are polynomials, so the two invariants go together.
  h.preserves (P := fun t => t.Persists ∧
      t.Separates configuration.dimension (groupUnknowns configuration.dimension G) G)
    ⟨persists_start configuration, separates_start configuration _ G⟩
    (fun _ k ht => ⟨ht.1.lookup k, ht.2.lookup k⟩)
    (fun _ _ _ hc heffect ht => ⟨ht.1.effect heffect hc.isPlain, ht.2.effect ht.1 hgroups heffect hc⟩)
    (fun _ _ _ _ hfree ht => ⟨ht.1.turn hfree,
      (ht.2.solve ht.1 hfree).keeps_registry (ht.2.solve ht.1 hfree).registry rfl rfl⟩)
    hcs

/-! ## Independent unknowns -/

/-- What a solve in a state with separated groups leaves alone. -/
theorem Separates.solveNow_frame (h : s.Separates d A G) (hs : s.Persists) {e : Equation}
    (he : s.equations[place]? = some e) (hG : ∀ j ∈ e.coefficients, j ∈ G) (hk : k ∉ G) :
    (s.solveNow place).1.registry.tensor? k = s.registry.tensor? k ∧
      (s.solveNow place).1.registry.settled? k = s.registry.settled? k := by
  rcases solveNow_cases s place with heq | ⟨hfree, heq⟩ <;> rw [heq]
  · exact ⟨rfl, rfl⟩
  rcases solve_settles s place with ⟨heq, -⟩ | ⟨d, _, hd, -, -, heq⟩ <;> rw [heq]
  · exact ⟨rfl, rfl⟩
  obtain rfl := Option.some.inj (he.symm.trans hd)
  have hblocked := isBlocked_of_isHeldUp hfree he
  exact h.registry.tensor?_solve hs.registry hblocked (hs.given e (List.mem_of_getElem? he)) hG hk

/-- **Two coefficients of different names have symbols of their own exactly if neither shadows the other.** In
a run in which the coefficients of two such groups are completed with their general tensors and no equation
mentions both groups, the solve of an equation on one group leaves all coefficients of the other one as they
are, now and when they are released. -/
theorem unknowns_independent (configuration : Configuration) :
    (∀ j k : CoefficientKey, j.name ≠ k.name → ∀ t u,
      Tensor.general j.labels configuration.dimension j.name = .ok t →
      Tensor.general k.labels configuration.dimension k.name = .ok u →
      ((∀ n ∈ t.symbols, n ∉ u.symbols) ↔
        ¬ Shadows configuration.dimension k j ∧ ¬ Shadows configuration.dimension j k)) ∧
    ∀ (G H : Set CoefficientKey), (∀ j ∈ G, ∀ k ∈ H, AreIndependent configuration.dimension j k) →
      ∀ cs t, Runs (start configuration) cs t → (∀ c ∈ cs, c.IsWithin G H) →
      ∀ place e, t.equations[place]? = some e → (∀ j ∈ e.coefficients, j ∈ G) → ∀ k ∈ H,
        (t.solveNow place).1.registry.tensor? k = t.registry.tensor? k ∧
        (t.solveNow place).1.registry.settled? k = t.registry.settled? k := by
  refine ⟨fun j k hname t u ht hu => ?_, fun G H hgroups cs t hrun hcs place e he hG k hk => ?_⟩
  · rw [← CoefficientKey.disjoint_unknowns_iff hname, Set.disjoint_left]
    simp only [CoefficientKey.mem_symbols_iff ht, CoefficientKey.mem_symbols_iff hu]
  · obtain ⟨hs, hseparates⟩ := hrun.separates hgroups hcs
    exact hseparates.solveNow_frame hs he hG fun hkG => (hgroups k hkG k hk).names rfl

/-- A scalar coefficient and a vector, both general, and an equation on the scalar. -/
def scalarAndVector (scalar vector : String) : List Command :=
  [.completeGeneral ⟨⟨0, 0, 0, 0⟩, scalar⟩ "", .completeGeneral ⟨⟨1, 0, 0, 0⟩, vector⟩ "",
    .addEquation ("#<" ++ scalar ++ ":0:0:0:0:\x7b\x7d> - 3")]

/-- The components of the coefficient of a key. -/
def components? (s : Session) (k : CoefficientKey) : Option (List Scalar) :=
  (s.registry.tensor? k).map Tensor.toList

/-- An equation on the scalar solves it and leaves the vector alone. -/
theorem unknowns_independent_xy : ∃ t, Runs (start .planar) (scalarAndVector "x" "y") t ∧
    (t.solveNow 0).1.components? ⟨⟨0, 0, 0, 0⟩, "x"⟩ = some [3] ∧
    t.components? ⟨⟨1, 0, 0, 0⟩, "y"⟩ =
      some [.symbol "Coefficient_y_1_0_0_0_0", .symbol "Coefficient_y_1_0_0_0_1"] ∧
    (t.solveNow 0).1.components? ⟨⟨1, 0, 0, 0⟩, "y"⟩ = t.components? ⟨⟨1, 0, 0, 0⟩, "y"⟩ := by
  obtain ⟨t, ht⟩ : ∃ t, t = (scalarAndVector "x" "y").foldl issue (start .planar) := ⟨_, rfl⟩
  have hrun : Runs (start .planar) (scalarAndVector "x" "y") t := ht ▸ Runs.start.issueAll _
  have hindependent : AreIndependent 2 ⟨⟨0, 0, 0, 0⟩, "x"⟩ ⟨⟨1, 0, 0, 0⟩, "y"⟩ :=
    CoefficientKey.areIndependent_of_notMem (by decide +kernel) (by decide +kernel) (by decide +kernel)
  have hvalues : (t.solveNow 0).1.components? ⟨⟨0, 0, 0, 0⟩, "x"⟩ = some [3] ∧
      t.components? ⟨⟨1, 0, 0, 0⟩, "y"⟩ =
        some [.symbol "Coefficient_y_1_0_0_0_0", .symbol "Coefficient_y_1_0_0_0_1"] ∧
      (t.equations[0]?.any fun e => e.coefficients = [⟨⟨0, 0, 0, 0⟩, "x"⟩]) = true := by
    rw [ht]
    decide +kernel
  obtain ⟨e, he, hcoefficients⟩ := (Option.any_eq_true _ _).mp hvalues.2.2
  rw [decide_eq_true_iff] at hcoefficients
  have htags : (parseEquation "#<x:0:0:0:0:\x7b\x7d> - 3").toOption.all (fun reading =>
      reading.tags.all fun tag => tag.key = ⟨⟨0, 0, 0, 0⟩, "x"⟩) = true := by
    decide +kernel
  have hwithin : ∀ c ∈ scalarAndVector "x" "y",
      c.IsWithin {⟨⟨0, 0, 0, 0⟩, "x"⟩} {⟨⟨1, 0, 0, 0⟩, "y"⟩} := by
    intro c hc
    simp only [scalarAndVector, List.mem_cons, List.not_mem_nil, or_false] at hc
    rcases hc with rfl | rfl | rfl
    · exact ⟨rfl, .inl rfl⟩
    · exact ⟨rfl, .inr rfl⟩
    · refine fun reading hreading => .inl fun tag htag => ?_
      have hreading' : parseEquation "#<x:0:0:0:0:\x7b\x7d> - 3" = .ok reading := hreading
      rw [hreading'] at htags
      exact of_decide_eq_true (List.all_eq_true.mp htags tag htag)
  have hframe := (unknowns_independent .planar).2 {⟨⟨0, 0, 0, 0⟩, "x"⟩} {⟨⟨1, 0, 0, 0⟩, "y"⟩}
    (by rintro _ rfl _ rfl; exact hindependent) _ t hrun hwithin 0 e he
    (fun j hj => List.mem_singleton.mp (hcoefficients ▸ hj)) _ rfl
  exact ⟨t, hrun, hvalues.1, hvalues.2.1, congrArg (Option.map Tensor.toList) hframe.1⟩

/-- **Different names, and one symbol in common.** An equation on the scalar rewrites the vector. -/
theorem unknowns_shared :
    let steps := scalarAndVector "y_1" "y"
    let before := (start .planar).run (steps.take 2)
    let after := (start .planar).run steps
    CoefficientKey.name ⟨⟨0, 0, 0, 0⟩, "y_1"⟩ ≠ CoefficientKey.name ⟨⟨1, 0, 0, 0⟩, "y"⟩ ∧
    before.components? ⟨⟨0, 0, 0, 0⟩, "y_1"⟩ = some [.symbol "Coefficient_y_1_0_0_0_0"] ∧
    before.components? ⟨⟨1, 0, 0, 0⟩, "y"⟩ =
      some [.symbol "Coefficient_y_1_0_0_0_0", .symbol "Coefficient_y_1_0_0_0_1"] ∧
    after.components? ⟨⟨1, 0, 0, 0⟩, "y"⟩ = some [3, .symbol "Coefficient_y_1_0_0_0_1"] := by
  decide +kernel

end Session

end TensorEquations
