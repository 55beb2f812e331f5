import TensorEquations.Proofs.Tensor.Lookup
import TensorEquations.Tensor.Symmetry

/-!
# Symmetrization by label

* `Tensor.checkLabels_eq_ok` — the labels that the symmetrizers accept.
* `Tensor.permutedTerm`, `Tensor.lookup_permutedSum` — **what is read from a sum over exchanges of blocks.**
* `Tensor.symmetrized` — the result of both symmetrizers of labels.
* `Tensor.Related.permutedSum` — sums over exchanges of labels.
* `Tensor.Related.symmetrize`, `Tensor.Related.antisymmetrize`, `Tensor.Related.blockSymmetrize`,
  `Tensor.Related.exchangeSymmetrize` — **the symmetrizers of related tensors both fail or are
  related.**
-/

namespace TensorEquations.Tensor

open Scalar (IsLinearRelation)

variable {t u : Tensor} {labels : List String} {ν : Assignment} {l : String}

/-! ## Sums over exchanges -/

theorem checkLabels_eq_ok : t.checkLabels labels = .ok () ↔ (∀ l ∈ labels, l ∈ t.labels) ∧ labels.Nodup := by
  unfold checkLabels
  cases hfound : labels.find? fun l => !t.labels.contains l with
  | some l =>
    have hl : l ∉ t.labels := by simpa using List.find?_some hfound
    simp only [reduceCtorEq, false_iff]
    exact fun h => hl (h.1 l (List.mem_of_find?_eq_some hfound))
  | none =>
    have hall : ∀ l ∈ labels, l ∈ t.labels := by simpa using hfound
    simp only [ite_eq_left_iff, reduceCtorEq, imp_false, not_not]
    exact ⟨fun h => ⟨hall, h⟩, And.right⟩

/-- Two tensors that accept labels alike. -/
theorem checkLabels_agree {labels' : List String}
    (h : u.checkLabels labels' = .ok () ↔ t.checkLabels labels = .ok ()) :
    Agree (fun _ _ => ∀ l ∈ labels, l ∈ t.labels) (t.checkLabels labels) (u.checkLabels labels') := by
  by_cases hok : t.checkLabels labels = .ok ()
  · rw [hok, h.mpr hok]
    exact Agree.ok (checkLabels_eq_ok.mp hok).1
  · cases ht : t.checkLabels labels with
    | ok => exact absurd ht hok
    | error =>
      cases hu : u.checkLabels labels' with
      | ok => exact absurd (h.mp hu) hok
      | error => exact Agree.error _ _

/-- The label whose value a label takes in an exchange. -/
def exchanged (source target : List String) (l : String) : String := ((source.zip target).lookup l).getD l

theorem exchanged_mem (source target : List String) (l : String) :
    exchanged source target l = l ∨ exchanged source target l ∈ target := by
  unfold exchanged
  cases hfound : (source.zip target).lookup l with
  | none => exact .inl rfl
  | some m =>
    obtain ⟨xs, ys, hsplit, -⟩ := List.lookup_eq_some_iff.mp hfound
    have hmem : (l, m) ∈ source.zip target := hsplit ▸ List.mem_append_right _ List.mem_cons_self
    exact .inr (List.of_mem_zip hmem).2

/-- Labels of a tensor are exchanged for labels of it. -/
theorem exchanged_mem_labels {source target : List String} (htarget : ∀ l ∈ target, l ∈ t.labels)
    (hl : l ∈ t.labels) : exchanged source target l ∈ t.labels := by
  obtain h | h := exchanged_mem source target l
  · exact h.symm ▸ hl
  · exact htarget _ h

/-- The part of a sum over exchanges that belongs to one order of the blocks. -/
def permutedTerm (t : Tensor) (blocks : List (List String)) (signed : Bool) (ν : Assignment) (p : List ℕ) : Scalar :=
  let term := t.lookup (ν ∘ exchanged (p.flatMap fun k => blocks.getD k []) blocks.flatten)
  if signed && decide (parity p < 0) then -term else term

/-- The values of other labels do not matter. -/
theorem dependsOn_permutedTerms {blocks : List (List String)} (hblocks : ∀ l ∈ blocks.flatten, l ∈ t.labels)
    (signed : Bool) : DependsOn (fun ν => addUp ((arrangements (List.range blocks.length)).map
      (t.permutedTerm blocks signed ν))) {l | l ∈ t.labels} := by
  intro ν μ h
  refine congrArg addUp (List.map_congr_left fun p _ => ?_)
  have hterm : t.lookup (ν ∘ exchanged (p.flatMap fun k => blocks.getD k []) blocks.flatten) =
      t.lookup (μ ∘ exchanged (p.flatMap fun k => blocks.getD k []) blocks.flatten) :=
    t.dependsOn_lookup fun l hl => h _ (exchanged_mem_labels hblocks hl)
  simp only [permutedTerm, hterm]

/-- **What is read from a sum over exchanges.** -/
theorem lookup_permutedSum {blocks : List (List String)} (hblocks : ∀ l ∈ blocks.flatten, l ∈ t.labels)
    (signed : Bool) (hν : t.InRange ν) : (t.permutedSum blocks signed).lookup ν =
      addUp ((arrangements (List.range blocks.length)).map (t.permutedTerm blocks signed ν)) :=
  lookup_tabulated (dependsOn_permutedTerms hblocks signed) hν

theorem flatten_singletons (labels : List String) : (labels.map fun l => [l]).flatten = labels := by
  rw [← List.flatMap_def, List.flatMap_singleton']

/-- The result of both symmetrizers, with signs or without. -/
def symmetrized (t : Tensor) (labels : List String) (signed scaled : Bool) : Tensor :=
  (t.permutedSum (labels.map fun l => [l]) signed).normalize scaled labels.length

theorem symmetrize_ok (hlabels : ∀ l ∈ labels, l ∈ t.labels) (hn : labels.Nodup) (scaled : Bool) :
    t.symmetrize labels scaled = .ok (t.symmetrized labels false scaled) := by
  rw [symmetrize, checkLabels_eq_ok.mpr ⟨hlabels, hn⟩]
  rfl

theorem antisymmetrize_ok (hlabels : ∀ l ∈ labels, l ∈ t.labels) (hn : labels.Nodup) (scaled : Bool) :
    t.antisymmetrize labels scaled = .ok (t.symmetrized labels true scaled) := by
  rw [antisymmetrize, checkLabels_eq_ok.mpr ⟨hlabels, hn⟩]
  rfl

/-! ## Related tensors -/

section Related

variable {S : Scalar → Scalar → Prop}

theorem Related.checkLabels (h : t.Related S u) (labels : List String) :
    Agree (fun _ _ => True) (t.checkLabels labels) (u.checkLabels labels) := by
  unfold Tensor.checkLabels
  rw [h.labels]
  split
  · exact Agree.error _ _
  · exact Agree.ite Iff.rfl (Agree.ok trivial) (Agree.error _ _)

variable [IsLinearRelation S]

theorem Related.permutedSum (h : t.Related S u) (blocks : List (List String)) (signed : Bool) :
    (t.permutedSum blocks signed).Related S (u.permutedSum blocks signed) := by
  refine tabulate_related h.labels _ _ h.dimension fun ν => addUp_related (forall₂_map_related ?_ _)
  intro p
  simp only
  split
  · exact IsLinearRelation.neg (h.lookup _)
  · exact h.lookup _

theorem Related.normalize (h : t.Related S u) (scaled : Bool) (n : Nat) :
    (t.normalize scaled n).Related S (u.normalize scaled n) := by
  unfold Tensor.normalize
  split
  · exact h.scale _
  · exact h

theorem Related.symmetrize (h : t.Related S u) (labels : List String) (scaled : Bool) :
    Agree (Related S) (t.symmetrize labels scaled) (u.symmetrize labels scaled) :=
  (h.checkLabels labels).bind fun _ _ _ => Agree.ok ((h.permutedSum _ _).normalize _ _)

theorem Related.antisymmetrize (h : t.Related S u) (labels : List String) (scaled : Bool) :
    Agree (Related S) (t.antisymmetrize labels scaled) (u.antisymmetrize labels scaled) :=
  (h.checkLabels labels).bind fun _ _ _ => Agree.ok ((h.permutedSum _ _).normalize _ _)

theorem Related.blockSymmetrize (h : t.Related S u) (blocks : List (List String)) (scaled : Bool) :
    Agree (Related S) (t.blockSymmetrize blocks scaled) (u.blockSymmetrize blocks scaled) := by
  unfold Tensor.blockSymmetrize
  split
  · exact Agree.ok h
  · refine Agree.ite Iff.rfl trivial ?_
    exact (h.checkLabels _).bind fun _ _ _ => Agree.ok ((h.permutedSum _ _).normalize _ _)

theorem Related.exchangeSymmetrize (h : t.Related S u) (labels : List String) (scaled : Bool) :
    Agree (Related S) (t.exchangeSymmetrize labels scaled) (u.exchangeSymmetrize labels scaled) := by
  refine (h.withLabels labels).bind fun _ _ hx => (h.add hx).bind fun a b hab => ?_
  refine Agree.ok ?_
  split
  · exact hab.scale _
  · exact hab

end Related

end TensorEquations.Tensor
