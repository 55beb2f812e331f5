import TensorEquations.Proofs.Tensor.Naturality

/-!
# Renaming by two lists

A renaming is given by the list of the old labels and the list of the new ones. A label may stand among the old ones
more than once, and then its last place counts.

* `Tensor.renamed_of_notMem`, `Tensor.renamed_of_last` — what a label becomes.
* `Tensor.rename_eq_ok_iff` — **the renamings that succeed, and their results.**
* `Tensor.GivesOneName` — two lists that give no label two new names.
* `Tensor.renamed_renamed` — labels that are renamed and renamed back.
* `Tensor.rename_axes` — **what a renaming does with each axis, and when renaming back undoes it.**
-/

namespace TensorEquations

variable {old new : List String} {l m : String} {k : ℕ}

/-! ## Tables of labels -/

section Table

variable {table : List (String × String)}

theorem lookup_of_notMem (h : ∀ m, (l, m) ∉ table) : table.lookup l = none := by
  refine List.lookup_eq_none_iff.mpr ?_
  rintro ⟨x, m⟩ hp
  exact bne_iff_ne.mpr fun he => h m (he ▸ hp)

/-- A key whose entries all have one value. -/
theorem lookup_eq_of_unique (h : (l, m) ∈ table) (hone : ∀ m', (l, m') ∈ table → m' = m) :
    table.lookup l = some m := by
  cases hfound : table.lookup l with
  | none => exact absurd rfl (bne_iff_ne.mp (List.lookup_eq_none_iff.mp hfound _ h))
  | some m' =>
    obtain ⟨xs, ys, rfl, -⟩ := List.lookup_eq_some_iff.mp hfound
    rw [hone m' (List.mem_append_right _ List.mem_cons_self)]

end Table

theorem mem_zip_comm : (l, m) ∈ old.zip new ↔ (m, l) ∈ new.zip old := by
  rw [← List.zip_swap new old, List.mem_map]
  constructor
  · rintro ⟨⟨_, _⟩, hp, he⟩
    cases he
    exact hp
  · exact fun h => ⟨_, h, rfl⟩

/-- Labels of a list have labels of another one as long beside them. -/
theorem exists_mem_zip (hlength : old.length = new.length) (hl : l ∈ old) : ∃ m, (l, m) ∈ old.zip new := by
  have hmap : (old.zip new).map Prod.fst = old := List.map_fst_zip hlength.le
  rw [← hmap] at hl
  obtain ⟨⟨_, m⟩, hm, rfl⟩ := List.mem_map.mp hl
  exact ⟨m, hm⟩

theorem mem_zip_of_getElem? (hold : old[k]? = some l) (hnew : new[k]? = some m) : (l, m) ∈ old.zip new :=
  List.mem_of_getElem? (List.getElem?_zip_eq_some (z := (l, m)).mpr ⟨hold, hnew⟩)

namespace Tensor

variable {t u : Tensor}

/-! ## What labels become -/

theorem renamed_of_notMem (hl : l ∉ old) : renamed old new l = l := by
  have hnone : (old.zip new).reverse.lookup l = none :=
    lookup_of_notMem fun m hm => hl (List.of_mem_zip (List.mem_reverse.mp hm)).1
  rw [renamed, hnone]
  rfl

/-- A label that is given one new name. -/
theorem renamed_of_mem (hm : (l, m) ∈ old.zip new) (hone : ∀ m', (l, m') ∈ old.zip new → m' = m) :
    renamed old new l = m := by
  have hfound : (old.zip new).reverse.lookup l = some m :=
    lookup_eq_of_unique (List.mem_reverse.mpr hm) fun m' hm' => hone m' (List.mem_reverse.mp hm')
  rw [renamed, hfound]
  rfl

/-- **The last place of a label counts.** -/
theorem renamed_of_last (hold : old[k]? = some l) (hnew : new[k]? = some m) (hlast : l ∉ old.drop (k + 1)) :
    renamed old new l = m := by
  obtain ⟨hk, hpair⟩ := List.getElem?_eq_some_iff.mp (List.getElem?_zip_eq_some (z := (l, m)).mpr ⟨hold, hnew⟩)
  have hsplit : (old.zip new).reverse =
      ((old.zip new).drop (k + 1)).reverse ++ (l, m) :: ((old.zip new).take k).reverse := by
    conv_lhs => rw [← List.take_append_drop k (old.zip new), List.drop_eq_getElem_cons hk, hpair]
    simp
  have hlater : ((old.zip new).drop (k + 1)).reverse.lookup l = none := by
    refine lookup_of_notMem fun m hm => hlast ?_
    rw [List.mem_reverse, List.zip, List.drop_zipWith] at hm
    exact (List.of_mem_zip hm).1
  rw [renamed, hsplit, List.lookup_append, hlater, Option.none_or, List.lookup_cons_self]
  rfl

/-- **The renamings that succeed, and their results.** -/
theorem rename_eq_ok_iff : t.rename old new = .ok u ↔ old.length = new.length ∧ (∀ l ∈ old, l ∈ t.labels) ∧
    u.labels = t.labels.map (renamed old new) ∧ u.SameComponents t := by
  have hmissing : old.filter (fun l => !t.labels.contains l) = [] ↔ ∀ l ∈ old, l ∈ t.labels := by
    simp [List.filter_eq_nil_iff]
  constructor
  · intro h
    unfold rename at h
    split at h
    · cases h
    · next hlength =>
      dsimp only at h
      split at h
      · cases h
      · next hfound =>
        unfold relabel at h
        split at h
        · cases h
          exact ⟨not_not.mp hlength, hmissing.mp (not_not.mp hfound), rfl, rfl, rfl⟩
        · cases h
  · rintro ⟨hlength, hfound, hlabels, hsame⟩
    obtain ⟨u', hu', hlabels', hsame'⟩ := relabel_ok (t := t) (List.length_map _) (hlabels ▸ u.nodup_labels)
    have heq : u = u' := eq_of_sameComponents (hlabels.trans hlabels'.symm)
      ⟨hsame.dimension.trans hsame'.dimension.symm, hsame.components.trans hsame'.components.symm⟩
    rw [rename, if_neg (not_not.mpr hlength), hmissing.mpr hfound, if_neg (not_not.mpr rfl), hu', heq]

/-! ## Renaming back -/

/-- No label is given two new names. -/
def GivesOneName (old new : List String) : Prop := ∀ p ∈ old.zip new, ∀ q ∈ old.zip new, p.1 = q.1 → p.2 = q.2

instance (old new : List String) : Decidable (GivesOneName old new) :=
  inferInstanceAs (Decidable (∀ p ∈ old.zip new, ∀ q ∈ old.zip new, p.1 = q.1 → p.2 = q.2))

theorem GivesOneName.renamed_eq (h : GivesOneName old new) (hm : (l, m) ∈ old.zip new) : renamed old new l = m :=
  renamed_of_mem hm fun _ hm' => h _ hm' _ hm rfl

section Back

variable {labels : List String} (hn : (labels.map (renamed old new)).Nodup) (hold : ∀ l ∈ old, l ∈ labels)
  (hone : GivesOneName old new)

include hn hold hone in
/-- What becomes the label that another one becomes is that one. -/
theorem eq_of_mem_zip (hl : l ∈ labels) {l' : String} (hm : (l', renamed old new l) ∈ old.zip new) : l' = l :=
  List.inj_on_of_nodup_map hn (hold l' (List.of_mem_zip hm).1) hl (hone.renamed_eq hm)

include hn hold hone in
/-- **What is renamed and renamed back.** -/
theorem renamed_renamed (hlength : old.length = new.length) (hl : l ∈ labels) :
    renamed new old (renamed old new l) = l := by
  by_cases hmem : l ∈ old
  · obtain ⟨m, hm⟩ := exists_mem_zip hlength hmem
    rw [← hone.renamed_eq hm] at hm
    exact renamed_of_mem (mem_zip_comm.mp hm) fun _ hm' => eq_of_mem_zip hn hold hone hl (mem_zip_comm.mp hm')
  · -- A label that is kept is no new name, since the label with that name would become it too.
    have hnew : renamed old new l ∉ new := by
      intro h
      obtain ⟨l', hm⟩ := exists_mem_zip hlength.symm h
      have hl' := eq_of_mem_zip hn hold hone hl (mem_zip_comm.mp hm)
      exact hmem (hl' ▸ (List.of_mem_zip hm).2)
    rw [renamed_of_notMem hnew, renamed_of_notMem hmem]

end Back

theorem SameComponents.symm (h : u.SameComponents t) : t.SameComponents u := ⟨h.dimension.symm, h.components.symm⟩

theorem rename_back (h : t.rename old new = .ok u) (hone : GivesOneName old new) : u.rename new old = .ok t := by
  obtain ⟨hlength, hold, hlabels, hsame⟩ := rename_eq_ok_iff.mp h
  have hn : (t.labels.map (renamed old new)).Nodup := hlabels ▸ u.nodup_labels
  refine rename_eq_ok_iff.mpr ⟨hlength.symm, fun m hm => ?_, ?_, hsame.symm⟩
  · obtain ⟨l, hl⟩ := exists_mem_zip hlength.symm hm
    rw [hlabels, ← hone.renamed_eq (mem_zip_comm.mp hl)]
    exact List.mem_map_of_mem (hold l (List.of_mem_zip hl).2)
  · rw [hlabels, List.map_map, eq_comm]
    exact (List.map_congr_left fun l hl => renamed_renamed hn hold hone hlength hl).trans (List.map_id _)

/-! ## All axes -/

/-- **What a renaming does with each axis.** A renaming that succeeds keeps the components. An axis whose label is not
renamed keeps it, and one whose label is renamed gets the new label beside the last place of the old one. So the label
at every place gives its axis the new label there exactly if no label is given two of them, and then renaming back
gives the tensor itself. -/
theorem rename_axes (h : t.rename old new = .ok u) : u.SameComponents t ∧
    (∀ (i : ℕ) l, t.labels[i]? = some l → l ∉ old → u.labels[i]? = some l) ∧
    (∀ (i k : ℕ) l, t.labels[i]? = some l → old[k]? = some l → l ∉ old.drop (k + 1) → u.labels[i]? = new[k]?) ∧
    (GivesOneName old new ↔ ∀ (i k : ℕ) l, t.labels[i]? = some l → old[k]? = some l → u.labels[i]? = new[k]?) ∧
    (GivesOneName old new → u.rename new old = .ok t) := by
  obtain ⟨hlength, hold, hlabels, hsame⟩ := rename_eq_ok_iff.mp h
  have hplace : ∀ {i l}, t.labels[i]? = some l → u.labels[i]? = some (renamed old new l) := fun hi => by
    rw [hlabels, List.getElem?_map, hi]
    rfl
  have hbeside : ∀ {k l}, old[k]? = some l → ∃ m, new[k]? = some m := fun hk => by
    have hlt := (List.getElem?_eq_some_iff.mp hk).1
    exact ⟨_, List.getElem?_eq_getElem (hlength ▸ hlt)⟩
  refine ⟨hsame, fun i l hi hl => ?_, fun i k l hi hk hlast => ?_, ⟨fun hone i k l hi hk => ?_, fun hall => ?_⟩,
    rename_back h⟩
  · rw [hplace hi, renamed_of_notMem hl]
  · obtain ⟨m, hm⟩ := hbeside hk
    rw [hplace hi, hm, renamed_of_last hk hm hlast]
  · obtain ⟨m, hm⟩ := hbeside hk
    rw [hplace hi, hm, hone.renamed_eq (mem_zip_of_getElem? hk hm)]
  · rintro ⟨l, m⟩ hp ⟨l', m'⟩ hq he
    obtain rfl : l = l' := he
    obtain ⟨i, hi⟩ := List.getElem?_of_mem (hold l (List.of_mem_zip hp).1)
    obtain ⟨j, hj⟩ := List.getElem?_of_mem hp
    obtain ⟨k, hk⟩ := List.getElem?_of_mem hq
    obtain ⟨hj, hj'⟩ := List.getElem?_zip_eq_some.mp hj
    obtain ⟨hk, hk'⟩ := List.getElem?_zip_eq_some.mp hk
    exact Option.some.inj (((hall i j l hi hj).trans hj').symm.trans ((hall i k l hi hk).trans hk'))

/-- Three labels, two of them exchanged and the third one renamed twice to the same label. -/
theorem rename_axes_exchanged :
    let t := symbolic ["i", "j", "k"] (by decide) 2 "T"
    ∃ u, t.rename ["i", "k", "j", "k"] ["j", "a", "i", "a"] = .ok u ∧ u.labels = ["j", "i", "a"] ∧
      u.SameComponents t ∧ u.rename ["j", "a", "i", "a"] ["i", "k", "j", "k"] = .ok t := by
  intro t
  obtain ⟨u, hu⟩ : ∃ u, t.rename ["i", "k", "j", "k"] ["j", "a", "i", "a"] = .ok u := ⟨_, rfl⟩
  obtain ⟨hsame, -, -, -, hback⟩ := rename_axes hu
  exact ⟨u, hu, (rename_eq_ok_iff.mp hu).2.2.1, hsame, hback (by decide)⟩

/-- **A label that is given two new names is renamed**, but not to the first of them, and renaming back fails. -/
theorem rename_twice :
    let v := symbolic ["i"] (by decide) 2 "v"
    ∃ u, v.rename ["i", "i"] ["a", "b"] = .ok u ∧ v.labels[0]? = ["i", "i"][0]? ∧ u.labels[0]? ≠ ["a", "b"][0]? ∧
      ∃ error, u.rename ["a", "b"] ["i", "i"] = .error error := by
  intro v
  obtain ⟨u, hu⟩ : ∃ u, v.rename ["i", "i"] ["a", "b"] = .ok u := ⟨_, rfl⟩
  have hlabels : u.labels = ["b"] := (rename_eq_ok_iff.mp hu).2.2.1
  refine ⟨u, hu, rfl, by rw [hlabels]; decide, ?_⟩
  cases hback : u.rename ["a", "b"] ["i", "i"] with
  | error error => exact ⟨error, rfl⟩
  | ok w =>
    have ha : "a" ∈ u.labels := (rename_eq_ok_iff.mp hback).2.1 "a" (by decide)
    rw [hlabels] at ha
    exact absurd ha (by decide)

end Tensor

end TensorEquations
