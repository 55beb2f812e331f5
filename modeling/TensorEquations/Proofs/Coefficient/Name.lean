import Mathlib
import TensorEquations.Coefficient.Key
import TensorEquations.Tensor.Basic

/-!
# Names and what they tell apart

A name consists of a word, the text of a key, its four sizes and, for a component, a multi-index, with
underscores between them. The text may have underscores of its own, so a name is read from its end.

* `parts` — the parts of a text between underscores.
* `parts_joined` — numbers behind a text are parts of their own.
* `CoefficientKey.name_eq_iff` — **two keys have one name iff they have the same sizes and their texts
  differ in replaced characters at most.**
* `CoefficientKey.AreDistinguished` — no two keys of a list have one name.
* `lookup_map_of_nodup` — what is found in a table under a name.
-/

namespace TensorEquations

/-! ## Parts of a text -/

/-- The parts of a text between underscores. -/
def parts (text : String) : List (List Char) := text.toList.splitOn '_'

/-- A number as written. -/
def numeral (n : Int) : List Char := (toString n).toList

theorem parts_injective : Function.Injective parts := by
  intro a b h
  have hjoin := congrArg (List.intercalate ['_']) h
  rw [parts, parts, List.intercalate_splitOn, List.intercalate_splitOn] at hjoin
  exact String.toList_inj.mp hjoin

theorem numeral_injective : Function.Injective numeral :=
  fun _ _ h => Int.repr_injective (String.toList_inj.mp h)

theorem underscore_notMem_numeral (n : Int) : '_' ∉ numeral n := by
  have hnat : ∀ m : Nat, '_' ∉ m.repr.toList := by
    intro m
    rw [Nat.repr_eq_ofList_toDigits, String.toList_ofList]
    exact Nat.underscore_not_in_toDigits
  show '_' ∉ (Int.repr n).toList
  rw [Int.repr_eq_if]
  split
  · exact hnat _
  · rw [String.toList_append, List.mem_append, not_or]
    exact ⟨by decide, hnat _⟩

/-- Numbers behind a text are parts of their own. -/
theorem parts_joined (text : String) : ∀ ns : List Int,
    parts ("_".intercalate (text :: ns.map toString)) = parts text ++ ns.map numeral
  | [] => by rw [List.map_nil, String.intercalate_singleton, List.map_nil, List.append_nil]
  | n :: ns => by
    have hsplit : ∀ rest : String, parts (text ++ "_" ++ rest) = parts text ++ parts rest := by
      intro rest
      unfold parts
      rw [String.toList_append, String.toList_append, List.append_assoc]
      exact List.splitOn_append_cons_self text.toList rest.toList
    have hn : parts (toString n) = [numeral n] := List.splitOn_eq_singleton (underscore_notMem_numeral n)
    rw [List.map_cons, String.intercalate_cons_cons, hsplit, parts_joined (toString n) ns, hn]
    rfl

/-- **When two texts with numbers behind them are the same**: the text with fewer numbers ends in numbers of
its own. -/
theorem parts_append_eq_iff {a b : String} {xs ys : List Int} (h : xs.length ≤ ys.length) :
    parts a ++ xs.map numeral = parts b ++ ys.map numeral ↔
      ∃ front, ys = front ++ xs ∧ a = "_".intercalate (b :: front.map toString) := by
  constructor
  · intro heq
    obtain ⟨front, rest, rfl, hlength⟩ : ∃ front rest, ys = front ++ rest ∧ xs.length = rest.length :=
      ⟨ys.take (ys.length - xs.length), ys.drop (ys.length - xs.length), (List.take_append_drop ..).symm, by
        rw [List.length_drop]; omega⟩
    rw [List.map_append, ← List.append_assoc] at heq
    obtain ⟨htext, hnumbers⟩ := List.append_inj' heq (by rw [List.length_map, List.length_map, hlength])
    rw [← parts_joined] at htext
    exact ⟨front, by rw [List.map_injective_iff.mpr numeral_injective hnumbers], parts_injective htext⟩
  · rintro ⟨front, rfl, rfl⟩
    rw [parts_joined, List.map_append, List.append_assoc]

/-! ## Names of keys -/

theorem BlockShape.toList_injective : Function.Injective BlockShape.toList := by
  rintro ⟨a, b, c, d⟩ ⟨a', b', c', d'⟩ h
  cases h
  rfl

namespace CoefficientKey

variable {j k : CoefficientKey}

theorem parts_name (k : CoefficientKey) : parts k.name =
    "Coefficient".toList :: (parts (safeId k.id) ++ k.shape.toList.map numeral) := by
  have hsplit : k.name = "Coefficient" ++ "_" ++ "_".intercalate (safeId k.id :: k.shape.toList.map toString) :=
    String.intercalate_cons_cons
  have hword : parts k.name = parts "Coefficient" ++
      parts ("_".intercalate (safeId k.id :: k.shape.toList.map toString)) := by
    unfold parts
    rw [hsplit, String.toList_append, String.toList_append, List.append_assoc]
    exact List.splitOn_append_cons_self _ _
  rw [hword, parts_joined]
  have hfirst : parts "Coefficient" = ["Coefficient".toList] := List.splitOn_eq_singleton (by decide)
  rw [hfirst]
  rfl

/-- **When two keys have one name.** -/
theorem name_eq_iff : j.name = k.name ↔ j.shape = k.shape ∧ safeId j.id = safeId k.id := by
  constructor
  · intro h
    have hparts := congrArg parts h
    rw [parts_name, parts_name] at hparts
    have hle : j.shape.toList.length ≤ k.shape.toList.length := Nat.le_refl 4
    obtain ⟨front, hsizes, htext⟩ := (parts_append_eq_iff hle).mp ((List.cons_inj_right _).mp hparts)
    have hlength := congrArg List.length hsizes
    rw [List.length_append] at hlength
    obtain rfl : front = [] := List.length_eq_zero_iff.mp (Nat.add_eq_right.mp hlength.symm)
    rw [List.map_nil, String.intercalate_singleton] at htext
    exact ⟨BlockShape.toList_injective hsizes.symm, htext⟩
  · rintro ⟨hshape, htext⟩
    rw [name, name, hshape, htext]

/-- No two keys of a list have the same sizes and texts that differ in replaced characters only. -/
def AreDistinguished (ks : List CoefficientKey) : Prop :=
  ks.Pairwise fun j k => j.shape = k.shape → safeId j.id ≠ safeId k.id

/-- The names of keys are pairwise different if nothing that a name keeps of two keys is the same. -/
theorem areDistinguished_iff {ks : List CoefficientKey} : AreDistinguished ks ↔ (ks.map name).Nodup := by
  rw [List.Nodup, List.pairwise_map]
  have hne : ∀ {j k : CoefficientKey},
      (j.shape = k.shape → safeId j.id ≠ safeId k.id) ↔ j.name ≠ k.name :=
    not_and.symm.trans (not_congr name_eq_iff.symm)
  exact ⟨fun h => h.imp hne.mp, fun h => h.imp hne.mpr⟩

/-- A text of letters, digits and underscores stays as it is. -/
theorem safeId_eq_self {id : String} (h : ∀ c ∈ id.toList, isNameSafe c = true) : safeId id = id := by
  have hmap : (id.toList.map fun c => if isNameSafe c then c else '_') = id.toList := by
    refine (List.map_congr_left fun c hc => ?_).trans (List.map_id _)
    rw [if_pos (h c hc)]
    rfl
  rw [safeId, hmap, String.ofList_toList]

/-- **Texts of letters, digits and underscores are distinguished.** -/
theorem areDistinguished_of_isNameSafe {ks : List CoefficientKey} (hn : ks.Nodup)
    (h : ∀ k ∈ ks, ∀ c ∈ k.id.toList, isNameSafe c = true) : AreDistinguished ks := by
  refine List.Pairwise.imp_of_mem ?_ hn
  rintro ⟨shape, id⟩ ⟨shape', id'⟩ hj hk hne hshape hid
  rw [safeId_eq_self (h _ hj), safeId_eq_self (h _ hk)] at hid
  exact hne (by rw [CoefficientKey.mk.injEq]; exact ⟨hshape, hid⟩)

end CoefficientKey

/-! ## Tables by name -/

/-- What is found in a table under a name that no other entry has. -/
theorem lookup_map_of_nodup {α β : Type} {name : β → String} (value : β → α) : ∀ {xs : List β},
    (xs.map name).Nodup → ∀ x ∈ xs, (xs.map fun x => (name x, value x)).lookup (name x) = some (value x)
  | y :: xs, h, x, hx => by
    rw [List.map_cons, List.nodup_cons] at h
    rw [List.map_cons, List.lookup_cons]
    rcases List.mem_cons.mp hx with rfl | hx
    · rw [beq_self_eq_true]
    · have hne : name x ≠ name y := fun he => h.1 (he ▸ List.mem_map_of_mem hx)
      rw [beq_eq_false_iff_ne.mpr hne]
      exact lookup_map_of_nodup value h.2 x hx

end TensorEquations
