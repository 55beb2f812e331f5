import Mathlib.Data.List.Induction
import TensorEquations.Proofs.Coefficient.Registry

/-!
# The identity of a coefficient

* `BlockShape.canonical_eq_iff` — two shapes have one canonical form if they are equal or each other exchanged.
* `Mention.Agrees`, `Mention.key_eq_iff` — two mentions mean one coefficient if their texts are equal and their
  shapes are equal up to an exchange of the blocks.
* `List.eraseDups_append_eraseDups` — what is repeated may be dropped before or after two lists are joined.
* `Registry.Lists` — a registry has a coefficient for each of some keys, in the order in which they come first.
* `Registry.Lists.register`, `Registry.Lists.observeAll` — one more key, and several.
* `Registry.place?` — which coefficient a mention finds. Its place stays when coefficients are added behind it.
-/

namespace List

variable {α : Type} [BEq α] [LawfulBEq α] {a : α} {xs : List α}

theorem eraseDups_concat_of_mem (h : a ∈ xs) : (xs ++ [a]).eraseDups = xs.eraseDups := by
  rw [eraseDups_append]
  simp [removeAll, h]

theorem eraseDups_concat_of_not_mem (h : a ∉ xs) : (xs ++ [a]).eraseDups = xs.eraseDups ++ [a] := by
  rw [eraseDups_append]
  simp [removeAll, h, eraseDups_cons]

/-- What is repeated in the second list may be dropped before it is appended. -/
theorem eraseDups_append_eraseDups (xs ys : List α) : (xs ++ ys.eraseDups).eraseDups = (xs ++ ys).eraseDups := by
  induction ys using List.reverseRecOn with
  | nil => rfl
  | append_singleton ys a ih =>
      rw [← append_assoc]
      by_cases hmem : a ∈ ys
      · rw [eraseDups_concat_of_mem hmem, ih, eraseDups_concat_of_mem (mem_append_right xs hmem)]
      rw [eraseDups_concat_of_not_mem hmem, ← append_assoc]
      by_cases hfirst : a ∈ xs
      · rw [eraseDups_concat_of_mem (mem_append_left _ hfirst), ih,
          eraseDups_concat_of_mem (mem_append_left _ hfirst)]
      · rw [eraseDups_concat_of_not_mem (by simp [hfirst, hmem]), ih,
          eraseDups_concat_of_not_mem (by simp [hfirst, hmem])]

end List

namespace TensorEquations

/-! ## Shapes and mentions -/

namespace BlockShape

variable {s s' : BlockShape}

@[simp] theorem swap_swap (s : BlockShape) : s.swap.swap = s := rfl

/-- The left block is smaller: it has fewer indices, or as many and fewer derivative indices. -/
def IsLeftSmaller (s : BlockShape) : Prop :=
  s.left < s.right ∨ (s.left = s.right ∧ s.leftDerivatives < s.rightDerivatives)

theorem canonical_of_isLeftSmaller (h : s.IsLeftSmaller) : s.canonical = s.swap := if_pos h

theorem canonical_of_not_isLeftSmaller (h : ¬ s.IsLeftSmaller) : s.canonical = s := if_neg h

theorem isLeftSmaller_swap : s.swap.IsLeftSmaller ↔
    s.right < s.left ∨ (s.right = s.left ∧ s.rightDerivatives < s.leftDerivatives) := Iff.rfl

/-- The exchange of the blocks changes nothing, also if both blocks have the same sizes. -/
theorem canonical_swap (s : BlockShape) : s.swap.canonical = s.canonical := by
  by_cases h : s.IsLeftSmaller
  · have hswap : ¬ s.swap.IsLeftSmaller := by
      rw [isLeftSmaller_swap]
      unfold IsLeftSmaller at h
      omega
    rw [canonical_of_isLeftSmaller h, canonical_of_not_isLeftSmaller hswap]
  by_cases hswap : s.swap.IsLeftSmaller
  · rw [canonical_of_isLeftSmaller hswap, canonical_of_not_isLeftSmaller h, swap_swap]
  -- neither block is smaller, so the blocks have the same sizes
  rw [canonical_of_not_isLeftSmaller h, canonical_of_not_isLeftSmaller hswap]
  rw [isLeftSmaller_swap] at hswap
  unfold IsLeftSmaller at h
  obtain ⟨l, ld, r, rd⟩ := s
  simp only [swap, mk.injEq] at h hswap ⊢
  omega

theorem canonical_cases (s : BlockShape) : s.canonical = s ∨ s.canonical = s.swap := by
  by_cases h : s.IsLeftSmaller
  · exact .inr (canonical_of_isLeftSmaller h)
  · exact .inl (canonical_of_not_isLeftSmaller h)

theorem canonical_canonical (s : BlockShape) : s.canonical.canonical = s.canonical := by
  rcases canonical_cases s with h | h
  · rw [h, h]
  · rw [h, canonical_swap, h]

theorem rank_canonical (s : BlockShape) : s.canonical.rank = s.rank := by
  rcases canonical_cases s with h | h <;> rw [h]
  simp only [swap, rank]
  omega

/-- **Two shapes have one canonical form exactly if they are equal or each other with the blocks exchanged.** -/
theorem canonical_eq_iff : s.canonical = s'.canonical ↔ s = s' ∨ s = s'.swap := by
  constructor
  · intro h
    rcases canonical_cases s with hs | hs <;> rcases canonical_cases s' with hs' | hs' <;> rw [hs, hs'] at h
    · exact .inl h
    · exact .inr h
    · exact .inr (congrArg swap h)
    · exact .inl (congrArg swap h)
  · rintro (rfl | rfl)
    · rfl
    · exact canonical_swap s'

end BlockShape

/-- Two mentions of one coefficient: the texts are equal, and so are the shapes, or one of them is the other with the
blocks exchanged. -/
def Mention.Agrees (m m' : Mention) : Prop := m.id = m'.id ∧ (m.shape = m'.shape ∨ m.shape = m'.shape.swap)

/-- **Two mentions have one key exactly if they agree.** -/
theorem Mention.key_eq_iff {m m' : Mention} : m.key = m'.key ↔ m.Agrees m' := by
  rw [key, key, CoefficientKey.canonical, CoefficientKey.canonical, CoefficientKey.mk.injEq,
    BlockShape.canonical_eq_iff, Agrees]
  exact and_comm

namespace Registry

variable {r r' : Registry} {k : CoefficientKey} {ks ks' : List CoefficientKey} {m m' : Mention} {place : Nat}

/-! ## Registration -/

/-- The coefficients are those of some keys, each once and in the order in which the keys come first. -/
def Lists (r : Registry) (ks : List CoefficientKey) : Prop := r.keys = ks.eraseDups

theorem Lists.congr (h : r.Lists ks) (hkeys : r'.keys = r.keys) : r'.Lists ks := hkeys.trans h

theorem Lists.mem_keys (h : r.Lists ks) : k ∈ r.keys ↔ k ∈ ks := by
  rw [h]
  exact List.mem_eraseDups

theorem lists_empty : empty.Lists [] := rfl

/-- A repeated key is listed once. -/
theorem lists_eraseDups : r.Lists (ks ++ ks'.eraseDups) ↔ r.Lists (ks ++ ks') := by
  rw [Lists, Lists, List.eraseDups_append_eraseDups]

/-- **One more key comes last, unless it is there already.** -/
theorem Lists.register (h : r.Lists ks) (k : CoefficientKey) : (r.register k).Lists (ks ++ [k]) := by
  unfold Registry.register
  split
  · rename_i hmem
    rw [Lists, List.eraseDups_concat_of_mem (h.mem_keys.mp hmem)]
    exact h
  · rename_i hnew
    rw [Lists, List.eraseDups_concat_of_not_mem (mt h.mem_keys.mpr hnew), ← h, keys, List.map_append]
    rfl

theorem Lists.observeAll {o : Observer} : ∀ {ks' ks : List CoefficientKey} {r : Registry}, r.Lists ks →
    (r.observeAll o ks').Lists (ks ++ ks')
  | [], ks, _, h => (List.append_nil ks).symm ▸ h
  | k :: ks', ks, r, h => by
    have hregister : ((r.register k).modify k fun c => c.observe o).Lists (ks ++ [k]) :=
      (h.register k).congr (keys_modify _)
    have hrest : (r.observeAll o (k :: ks')).Lists (ks ++ [k] ++ ks') := hregister.observeAll
    rwa [List.append_assoc] at hrest

/-- What is listed first stays in front. -/
theorem Lists.grows (h : r.Lists ks) (h' : r'.Lists (ks ++ ks')) : r.keys <+: r'.keys := by
  rw [h, h', List.eraseDups_append]
  exact List.prefix_append _ _

/-- Keys that are listed already. -/
theorem Lists.append_of_subset (h : r.Lists ks) (hsubset : ks' ⊆ ks) : r.Lists (ks ++ ks') := by
  induction ks' using List.reverseRecOn with
  | nil => rwa [List.append_nil]
  | append_singleton ks' k ih =>
      have hsubset' := List.append_subset.mp hsubset
      rw [← List.append_assoc, Lists,
        List.eraseDups_concat_of_mem (List.mem_append_left _ (hsubset'.2 List.mem_cons_self))]
      exact ih hsubset'.1

/-! ## Places -/

/-- The place of the coefficient that a mention finds. -/
def place? (r : Registry) (m : Mention) : Option Nat := r.coefficients.findIdx? fun c => c.key = m.key

/-- The coefficient that a mention finds is the one at its place. -/
theorem find?_eq_place? : r.find? m.key = (r.place? m).bind (r.coefficients[·]?) :=
  List.find?_eq_bind_findIdx?_getElem?

theorem place?_eq_some : r.place? m = some place ↔ r.keys[place]? = some m.key := by
  rw [place?, List.findIdx?_eq_some_iff_getElem, keys, List.getElem?_map, Option.map_eq_some_iff]
  simp only [List.getElem?_eq_some_iff, decide_eq_true_eq]
  constructor
  · rintro ⟨hlt, hkey, -⟩
    exact ⟨_, ⟨hlt, rfl⟩, hkey⟩
  · rintro ⟨c, ⟨hlt, rfl⟩, hkey⟩
    refine ⟨hlt, hkey, fun i hi hkey' => ?_⟩
    -- both places have the same key, and no key is listed twice
    have hi' : i < r.coefficients.length := Nat.lt_trans hi hlt
    have hkeys : (r.coefficients.map Coefficient.key)[i]? = (r.coefficients.map Coefficient.key)[place]? := by
      simp only [List.getElem?_map, List.getElem?_eq_getElem hlt, List.getElem?_eq_getElem hi', Option.map_some,
        hkey, hkey']
    have hplace : i = place := (List.getElem?_inj (by simpa using hi') r.nodup_keys).mp hkeys
    omega

theorem exists_place? (h : m.key ∈ r.keys) : ∃ place, r.place? m = some place := by
  obtain ⟨place, hplace⟩ := List.getElem?_of_mem h
  exact ⟨place, place?_eq_some.mpr hplace⟩

/-- **A coefficient keeps its place when others are added behind it.** -/
theorem place?_of_grows (hkeys : r.keys <+: r'.keys) (h : r.place? m = some place) : r'.place? m = some place := by
  obtain ⟨added, hadded⟩ := hkeys
  obtain ⟨hlt, -⟩ := List.getElem?_eq_some_iff.mp (place?_eq_some.mp h)
  rw [place?_eq_some, ← hadded, List.getElem?_append_left hlt]
  exact place?_eq_some.mp h

/-- **Two mentions find one coefficient exactly if they agree.** -/
theorem place?_eq_iff (h : m.key ∈ r.keys) : r.place? m = r.place? m' ↔ m.Agrees m' := by
  rw [← Mention.key_eq_iff]
  constructor
  · intro hsame
    obtain ⟨place, hplace⟩ := exists_place? h
    have hkey := place?_eq_some.mp (hsame ▸ hplace)
    rw [place?_eq_some.mp hplace] at hkey
    exact Option.some.inj hkey
  · intro hkey
    rw [place?, place?, hkey]

end Registry

end TensorEquations
