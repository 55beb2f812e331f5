import TensorEquations.Proofs.Equation.Standing
import TensorEquations.Proofs.Scalar.WrittenOrder
import TensorEquations.Proofs.Session.Locking

/-!
# The order of locks

Several solves at once take their locks one by one, each in the order of keys.

* The instances for `CoefficientKey.order`, and `Equation.acquisition_ascending` — keys are totally ordered, and an
  equation takes its locks in strictly ascending order.
* `LockWait` — solves of which each holds the locks at the front of its list and waits for the next one.
* `LockWait.next_lt` — whoever is waited for waits for a later lock.
* `LockWait.acyclic` — **so nobody waits for himself, not even through others**, whatever the order in which the
  sources mention the coefficients.
* `Solvers`, `Solvers.Step` — solves on one registry, of which one takes a lock or carries out its work at a time.
* `Solvers.Sound.step`, `Solvers.Sound.reaches` — no lock is ever held by two of them.
* `Solvers.progress` — **as long as one of them is not done there is one that can go on.**
-/

namespace TensorEquations

open Relation (ReflTransGen TransGen)
open Std (LawfulEqCmp OrientedCmp TransCmp)

/-! ## The order of keys -/

namespace CoefficientKey

/-- The order of keys is that of five parts one after the other. -/
theorem order_eq : order =
    compareLex (fun j k => compare j.shape.left k.shape.left)
      (compareLex (fun j k => compare j.shape.leftDerivatives k.shape.leftDerivatives)
        (compareLex (fun j k => compare j.shape.right k.shape.right)
          (compareLex (fun j k => compare j.shape.rightDerivatives k.shape.rightDerivatives)
            fun j k => compare j.id k.id))) := rfl

instance : TransCmp order := by
  have hpart : ∀ {α : Type} [Ord α] [Std.TransOrd α] (part : CoefficientKey → α),
      TransCmp fun j k => compare (part j) (part k) := fun part => transCmp_comap compare part
  have hleft := hpart fun k => k.shape.left
  have hleftDerivatives := hpart fun k => k.shape.leftDerivatives
  have hright := hpart fun k => k.shape.right
  have hrightDerivatives := hpart fun k => k.shape.rightDerivatives
  have hid := hpart fun k => k.id
  rw [order_eq]
  infer_instance

/-- Different keys are not of the same order. -/
instance : LawfulEqCmp order where
  compare_self := by simp [order]
  eq_of_compare := by
    rintro ⟨⟨l, ld, r, rd⟩, id⟩ ⟨⟨l', ld', r', rd'⟩, id'⟩ h
    simp only [order, Ordering.then_eq_eq, Std.LawfulEqOrd.compare_eq_iff_eq] at h
    obtain ⟨rfl, rfl, rfl, rfl, rfl⟩ := h
    rfl

end CoefficientKey

namespace Equation

/-- **An equation takes its locks in strictly ascending order.** -/
theorem acquisition_ascending (e : Equation) :
    e.acquisition.Pairwise fun j k => CoefficientKey.order j k = .lt := by
  have hsorted : e.acquisition.Pairwise fun j k => CoefficientKey.le j k = true :=
    List.pairwise_mergeSort (fun _ _ _ => TransCmp.isLE_trans)
      (fun j k => by
        simp only [CoefficientKey.le, Bool.or_eq_true]
        have hswap : CoefficientKey.order k j = (CoefficientKey.order j k).swap := OrientedCmp.eq_swap
        rw [hswap]
        cases CoefficientKey.order j k <;> simp) e.coefficients
  refine (hsorted.and e.nodup_acquisition).imp fun {j k} h => ?_
  obtain ⟨hle, hne⟩ := h
  cases horder : CoefficientKey.order j k with
  | lt => rfl
  | eq => exact absurd (LawfulEqCmp.eq_of_compare horder) hne
  | gt =>
      rw [CoefficientKey.le, horder] at hle
      cases hle

end Equation

/-! ## Waiting for each other -/

variable {ι : Type} {r : Registry} {e : ι → Equation}

/-- Solves of some equations on a registry that all wait: each of them holds the locks at the front of its list and
waits for the next one. No lock is held by two of them. -/
structure LockWait (r : Registry) (e : ι → Equation) where
  held : ι → List CoefficientKey
  next : ι → CoefficientKey
  later : ι → List CoefficientKey
  registered : ∀ i, ∀ k ∈ (e i).coefficients, k ∈ r.keys
  acquisition : ∀ i, (e i).acquisition = held i ++ next i :: later i
  exclusive : ∀ i j, i ≠ j → (held i).Disjoint (held j)

namespace LockWait

variable (w : LockWait r e) {i j : ι}

/-- One solve waits for a lock that the other one holds. -/
def WaitsFor (i j : ι) : Prop := w.next i ∈ w.held j

/-- **Whoever is waited for waits for a later lock.** -/
theorem next_lt (h : w.WaitsFor i j) : CoefficientKey.order (w.next i) (w.next j) = .lt := by
  have hascending := (e j).acquisition_ascending
  rw [w.acquisition j, List.pairwise_append] at hascending
  exact hascending.2.2 _ h _ List.mem_cons_self

theorem next_lt_of_transGen (h : TransGen w.WaitsFor i j) :
    CoefficientKey.order (w.next i) (w.next j) = .lt := by
  induction h with
  | single h => exact w.next_lt h
  | tail _ h ih => exact TransCmp.lt_trans ih (w.next_lt h)

theorem not_transGen_self (i : ι) : ¬ TransGen w.WaitsFor i i := by
  intro h
  have hself : CoefficientKey.order (w.next i) (w.next i) = .eq := Std.ReflCmp.compare_self
  rw [w.next_lt_of_transGen h] at hself
  cases hself

/-- Among finitely many solves there is one that waits for no other. -/
theorem exists_not_waitsFor [Finite ι] [Nonempty ι] : ∃ i, ∀ j, ¬ w.WaitsFor i j := by
  have : IsTrans ι (flip (TransGen w.WaitsFor)) := ⟨fun _ _ _ h h' => h'.trans h⟩
  have : Std.Irrefl (flip (TransGen w.WaitsFor)) := ⟨w.not_transGen_self⟩
  have hwf : WellFounded (flip (TransGen w.WaitsFor)) := Finite.wellFounded_of_trans_of_irrefl _
  obtain ⟨i, -, hi⟩ := hwf.has_min Set.univ Set.univ_nonempty
  exact ⟨i, fun j hj => hi j (Set.mem_univ j) (.single hj)⟩

/-- **No solve waits for itself, neither directly nor through others**, and so one of finitely many waits for a
lock that none of them holds. -/
theorem acyclic [Finite ι] : (∀ i, ¬ TransGen w.WaitsFor i i) ∧ (Nonempty ι → ∃ i, ∀ j, w.next i ∉ w.held j) :=
  ⟨w.not_transGen_self, fun _ => w.exists_not_waitsFor⟩

/-- The equation of a source that mentions given coefficients in this order. -/
theorem exists_equation (code : String) (ks : List CoefficientKey) (h : (parseEquation code).toOption.any
    (fun reading => ({ source := code, reading := reading } : Equation).coefficients = ks) = true) :
    ∃ e : Equation, parseEquation e.source = .ok e.reading ∧ e.coefficients = ks := by
  obtain ⟨reading, hreading, hks⟩ := (Option.any_eq_true _ _).mp h
  refine ⟨{ source := code, reading := reading }, ?_, of_decide_eq_true hks⟩
  cases hparse : parseEquation code with
  | ok reading' =>
      rw [hparse] at hreading
      exact congrArg Except.ok (Option.some.inj hreading)
  | error error =>
      rw [hparse] at hreading
      cases hreading

/-- Two equations that mention two coefficients in opposite order. The first one holds one of them, and the second
one waits for it. -/
theorem acyclic_crossing : ∃ (p q : CoefficientKey) (r : Registry) (e : Bool → Equation) (w : LockWait r e),
    p ≠ q ∧ (∀ b, parseEquation (e b).source = .ok (e b).reading) ∧ (e false).coefficients = [p, q] ∧
    (e true).coefficients = [q, p] ∧ w.held false = [p] ∧ w.WaitsFor true false ∧
    (∀ b, ¬ TransGen w.WaitsFor b b) ∧ ∃ b, ∀ c, w.next b ∉ w.held c := by
  obtain ⟨p, hp⟩ : ∃ p : CoefficientKey, p = ⟨⟨0, 0, 0, 0⟩, "p"⟩ := ⟨_, rfl⟩
  obtain ⟨q, hq⟩ : ∃ q : CoefficientKey, q = ⟨⟨0, 0, 0, 0⟩, "q"⟩ := ⟨_, rfl⟩
  have hle : CoefficientKey.le p q = true ∧ CoefficientKey.le q p = false ∧ p ≠ q := by
    rw [hp, hq]
    decide +kernel
  have hkeys : ((Registry.empty.register p).register q).keys = [p, q] := by
    rw [hp, hq]
    decide +kernel
  obtain ⟨hle, hgt, hne⟩ := hle
  have hsort : CoefficientKey.sort [p, q] = [p, q] := List.mergeSort_of_pairwise (by simp [hle])
  have hswap : CoefficientKey.sort [q, p] = [p, q] := by
    rw [CoefficientKey.sort, List.mergeSort]
    simp [hgt, List.MergeSort.Internal.splitInTwo]
  obtain ⟨first, hparse, hfirst⟩ := exists_equation "#<p:0:0:0:0:\x7b\x7d> - #<q:0:0:0:0:\x7b\x7d>" [p, q]
    (by rw [hp, hq]; decide +kernel)
  obtain ⟨second, hparse', hsecond⟩ := exists_equation "#<q:0:0:0:0:\x7b\x7d> + #<p:0:0:0:0:\x7b\x7d> - 2"
    [q, p] (by rw [hp, hq]; decide +kernel)
  let w : LockWait ((Registry.empty.register p).register q) fun b : Bool => if b then second else first :=
    { held := fun b => if b then [] else [p]
      next := fun b => if b then p else q
      later := fun b => if b then [q] else []
      registered := by
        rw [Bool.forall_bool]
        simp [hkeys, hfirst, hsecond]
      acquisition := by
        rw [Bool.forall_bool]
        simp [Equation.acquisition, hfirst, hsecond, hsort, hswap]
      exclusive := by simp [Bool.forall_bool] }
  obtain ⟨hcycle, hfree⟩ := w.acyclic
  exact ⟨p, q, _, _, w, hne, Bool.forall_bool.mpr ⟨hparse, hparse'⟩, hfirst, hsecond, rfl,
    List.mem_singleton.mpr rfl, hcycle, hfree ⟨true⟩⟩

end LockWait

/-! ## Taking locks one by one -/

/-- The locks that an equation holds when it has taken some number of them; when it is done it holds none. -/
def Equation.heldLocks (e : Equation) : Option Nat → List CoefficientKey
  | some n => e.acquisition.take n
  | none => []

/-- Solves on one registry, with the number of locks that each of them has taken as long as it is not done. -/
structure Solvers (ι : Type) where
  registry : Registry
  taken : ι → Option Nat

namespace Solvers

variable {s t : Solvers ι} {i j : ι} {k : CoefficientKey} {n : Nat} {o : Option Nat}

/-- The locks that a solve holds. -/
def held (e : ι → Equation) (s : Solvers ι) (i : ι) : List CoefficientKey := (e i).heldLocks (s.taken i)

/-- A lock is held by one solve or it is free. -/
structure Sound (e : ι → Equation) (s : Solvers ι) : Prop where
  registered : ∀ i, ∀ k ∈ (e i).coefficients, k ∈ s.registry.keys
  bounded : ∀ i n, s.taken i = some n → n ≤ (e i).acquisition.length
  locked : ∀ k, s.registry.isLocked k = true ↔ ∃ i, k ∈ s.held e i
  exclusive : ∀ i j, i ≠ j → (s.held e i).Disjoint (s.held e j)

theorem held_eq (h : s.taken i = o) : s.held e i = (e i).heldLocks o := by
  rw [held, h]

/-- At the start all locks are free. -/
theorem sound_start (hregistered : ∀ i, ∀ k ∈ (e i).coefficients, k ∈ r.keys)
    (hfree : ∀ k, r.isLocked k = false) : Sound e ⟨r, fun _ => some 0⟩ where
  registered := hregistered
  bounded i n h := by
    obtain rfl := Option.some.inj h
    exact Nat.zero_le _
  locked k := by simp [hfree, held, Equation.heldLocks]
  exclusive i j _ := by simp [held, Equation.heldLocks, List.Disjoint]

/-! ### Steps -/

variable [DecidableEq ι]

/-- One of the solves goes on, and so does the registry. -/
def advance (s : Solvers ι) (r : Registry) (i : ι) (o : Option Nat) : Solvers ι := ⟨r, Function.update s.taken i o⟩

/-- One solve takes its next lock, if it is free, or one that has them all does its work and gives them back. -/
inductive Step (e : ι → Equation) : Solvers ι → Solvers ι → Prop
  | take {s : Solvers ι} {i : ι} {n : Nat} {k : CoefficientKey} (taken : s.taken i = some n)
      (next : (e i).acquisition[n]? = some k) (free : s.registry.isLocked k = false) :
      Step e s (s.advance (s.registry.lockAll [k]) i (some (n + 1)))
  | finish {s : Solvers ι} {i : ι} (taken : s.taken i = some (e i).acquisition.length) :
      Step e s (s.advance ((s.registry.solveLocked (e i)).1.releaseAll (e i).acquisition.reverse).1 i none)

@[simp] theorem taken_advance_self : (s.advance r i o).taken i = o := Function.update_self ..

theorem taken_advance (h : j ≠ i) : (s.advance r i o).taken j = s.taken j := Function.update_of_ne h ..

@[simp] theorem held_advance_self : (s.advance r i o).held e i = (e i).heldLocks o := held_eq taken_advance_self

theorem held_advance (h : j ≠ i) : (s.advance r i o).held e j = s.held e j := by
  rw [held, held, taken_advance h]

/-- One solve goes on. What it holds after that nobody else holds, and these are the locks that are not free. -/
theorem Sound.advance (h : s.Sound e) (hkeys : ∀ k ∈ s.registry.keys, k ∈ r.keys)
    (hbounded : ∀ n, o = some n → n ≤ (e i).acquisition.length)
    (hlocked : ∀ k, r.isLocked k = true ↔ k ∈ (e i).heldLocks o ∨ ∃ j, j ≠ i ∧ k ∈ s.held e j)
    (hexclusive : ∀ j, j ≠ i → ((e i).heldLocks o).Disjoint (s.held e j)) : (s.advance r i o).Sound e where
  registered j k hk := hkeys k (h.registered j k hk)
  bounded j m hm := by
    by_cases hj : j = i
    · subst hj
      rw [taken_advance_self] at hm
      exact hbounded m hm
    · rw [taken_advance hj] at hm
      exact h.bounded j m hm
  locked k := by
    refine (hlocked k).trans ⟨?_, ?_⟩
    · rintro (hk | ⟨j, hj, hk⟩)
      · exact ⟨i, by rwa [held_advance_self]⟩
      · exact ⟨j, by rwa [held_advance hj]⟩
    · rintro ⟨j, hk⟩
      by_cases hj : j = i
      · subst hj
        rw [held_advance_self] at hk
        exact .inl hk
      · rw [held_advance hj] at hk
        exact .inr ⟨j, hj, hk⟩
  exclusive j l hjl := by
    by_cases hj : j = i
    · subst hj
      rw [held_advance_self, held_advance (Ne.symm hjl)]
      exact hexclusive l (Ne.symm hjl)
    · by_cases hl : l = i
      · subst hl
        rw [held_advance_self, held_advance hj]
        exact (hexclusive j hj).symm
      · rw [held_advance hj, held_advance hl]
        exact h.exclusive j l hjl

/-- **A free lock is taken.** -/
theorem Sound.take (h : s.Sound e) (htaken : s.taken i = some n) (hnext : (e i).acquisition[n]? = some k)
    (hfree : s.registry.isLocked k = false) :
    (s.advance (s.registry.lockAll [k]) i (some (n + 1))).Sound e := by
  obtain ⟨hlt, hk⟩ := List.getElem?_eq_some_iff.mp hnext
  have hmem : k ∈ (e i).coefficients := Equation.mem_acquisition.mp (hk ▸ List.getElem_mem hlt)
  have hnobody : ∀ j, k ∉ s.held e j := fun j hj =>
    Bool.eq_false_iff.mp hfree ((h.locked k).mpr ⟨j, hj⟩)
  have hheld : (e i).heldLocks (some (n + 1)) = s.held e i ++ [k] := by
    rw [held_eq htaken, Equation.heldLocks, Equation.heldLocks, List.take_add_one, hnext]
    rfl
  refine h.advance (fun l hl => by rwa [Registry.keys_lockAll]) ?_ (fun l => ?_) fun j hj => ?_
  · intro m hm
    obtain rfl := Option.some.inj hm
    exact hlt
  · rw [hheld]
    by_cases hl : l = k
    · subst hl
      obtain ⟨c, hc⟩ := Registry.mem_keys_iff.mp (h.registered i l hmem)
      have hlocked : (s.registry.lockAll [l]).isLocked l = true := by
        unfold Registry.isLocked
        rw [Registry.find?_lockAll, if_pos List.mem_cons_self, hc]
        rfl
      exact iff_of_true hlocked (.inl (by simp))
    · rw [Registry.isLocked_lockAll (by simpa using hl), h.locked]
      constructor
      · rintro ⟨j, hj⟩
        by_cases hji : j = i
        · exact .inl (List.mem_append_left _ (hji ▸ hj))
        · exact .inr ⟨j, hji, hj⟩
      · rintro (hi | ⟨j, -, hj⟩)
        · exact ⟨i, by simpa [hl] using hi⟩
        · exact ⟨j, hj⟩
  · rw [hheld, List.disjoint_append_left]
    exact ⟨h.exclusive i j (Ne.symm hj), by simpa using hnobody j⟩

/-- **A solve that has all its locks gives them back**, and all other locks stay as they are. -/
theorem Sound.finish (h : s.Sound e) (htaken : s.taken i = some (e i).acquisition.length) :
    (s.advance ((s.registry.solveLocked (e i)).1.releaseAll (e i).acquisition.reverse).1 i none).Sound e := by
  have hheld : s.held e i = (e i).acquisition := by
    rw [held_eq htaken, Equation.heldLocks, List.take_length]
  have hretains : s.registry.Retains ((s.registry.solveLocked (e i)).1.releaseAll (e i).acquisition.reverse).1 :=
    Registry.Retains.trans (Registry.map_solveLocked Coefficient.isFrame_standing (e i))
      (Registry.retains_releaseAll _)
  refine h.advance (fun k hk => ?_) (fun n hn => nomatch hn) (fun k => ?_) fun j _ => List.disjoint_nil_left _
  · obtain ⟨c, hc⟩ := Registry.mem_keys_iff.mp hk
    obtain ⟨c', hc', -⟩ := hretains.find? hc
    exact Registry.mem_keys_iff.mpr ⟨c', hc'⟩
  · have hnone : k ∉ (e i).heldLocks none := List.not_mem_nil
    rw [Registry.isLocked_releaseAll]
    by_cases hk : k ∈ (e i).acquisition
    · rw [if_pos (List.mem_reverse.mpr hk)]
      refine iff_of_false (by simp) ?_
      rintro (hk' | ⟨j, hj, hk'⟩)
      · exact hnone hk'
      · exact h.exclusive i j (Ne.symm hj) (hheld ▸ hk) hk'
    · rw [if_neg (mt List.mem_reverse.mp hk),
        Registry.isLocked_congr (Registry.map_solveLocked Coefficient.isFrame_isLocked (e i) k), h.locked]
      constructor
      · rintro ⟨j, hj⟩
        refine .inr ⟨j, ?_, hj⟩
        rintro rfl
        exact hk (hheld ▸ hj)
      · rintro (hk' | ⟨j, -, hj⟩)
        · exact absurd hk' hnone
        · exact ⟨j, hj⟩

theorem Sound.step (h : s.Sound e) (hstep : Step e s t) : t.Sound e := by
  cases hstep with
  | take htaken hnext hfree => exact h.take htaken hnext hfree
  | finish htaken => exact h.finish htaken

/-- **No lock is ever held by two solves.** -/
theorem Sound.reaches (h : s.Sound e) (hreaches : ReflTransGen (Step e) s t) : t.Sound e := by
  induction hreaches with
  | refl => exact h
  | tail _ hstep ih => exact ih.step hstep

/-- **As long as one of finitely many solves is not done there is one that can go on.** If none of them has all its
locks then all of them wait, and one waits for a lock that nobody holds. -/
theorem progress [Finite ι] (h : s.Sound e) (hi : ∃ i, s.taken i ≠ none) : ∃ t, Step e s t := by
  by_cases hfull : ∃ i, s.taken i = some (e i).acquisition.length
  · obtain ⟨i, hi⟩ := hfull
    exact ⟨_, .finish hi⟩
  have hpartway : ∀ i : {i // s.taken i ≠ none}, ∃ n k, s.taken i = some n ∧ (e i).acquisition[n]? = some k := by
    rintro ⟨i, hi⟩
    obtain ⟨n, hn⟩ := Option.ne_none_iff_exists'.mp hi
    have hne : n ≠ (e i).acquisition.length := fun heq => hfull ⟨i, heq ▸ hn⟩
    have hlt : n < (e i).acquisition.length := lt_of_le_of_ne (h.bounded i n hn) hne
    exact ⟨n, _, hn, List.getElem?_eq_getElem hlt⟩
  choose n k htaken hnext using hpartway
  let w : LockWait s.registry fun i : {i // s.taken i ≠ none} => e i :=
    { held := fun i => s.held e i
      next := k
      later := fun i => (e i).acquisition.drop (n i + 1)
      registered := fun i => h.registered i
      acquisition := fun i => by
        obtain ⟨hlt, hk⟩ := List.getElem?_eq_some_iff.mp (hnext i)
        rw [held_eq (htaken i), Equation.heldLocks, ← hk, ← List.drop_eq_getElem_cons hlt, List.take_append_drop]
      exclusive := fun i j hij => h.exclusive i j fun heq => hij (Subtype.ext heq) }
  obtain ⟨i, hi⟩ := hi
  have : Nonempty {i // s.taken i ≠ none} := ⟨⟨i, hi⟩⟩
  obtain ⟨i, hnobody⟩ := w.exists_not_waitsFor
  refine ⟨_, .take (htaken i) (hnext i) (Bool.eq_false_iff.mpr fun hlocked => ?_)⟩
  obtain ⟨j, hj⟩ := (h.locked (k i)).mp hlocked
  have hjtaken : s.taken j ≠ none := by
    intro hnone
    rw [held_eq hnone] at hj
    exact List.not_mem_nil hj
  exact hnobody ⟨j, hjtaken⟩ hj

end Solvers

end TensorEquations
