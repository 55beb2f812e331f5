import TensorEquations.Proofs.Tensor.Product
import TensorEquations.Proofs.Tensor.Symmetry

/-!
# Operations under other labels

What the labels are has no part in what operations do with them, only which of them are equal.

* `idxOf_map_of_injOn`, `exchanged_map`, `sumOver_map` — places, exchanges and sums under a function that is
  injective on the labels.
* `Tensor.Relabeled`, `Tensor.Renames` — a tensor whose labels are changed by a function.
* `Tensor.Relabeled.add`, `Tensor.Relabeled.product`, `Tensor.Relabeled.symmetrize` and the others — **operations on
  relabelled tensors both fail or have relabelled values.**
* `Tensor.operations_natural` — **renaming labels and then applying an operation is the same as applying it and
  then renaming the labels that remain.**
-/

namespace TensorEquations

open Tensor

/-! ## Functions that are injective on labels -/

section Labels

variable {A : Set String} {σ : String → String} {labels labels' source target : List String} {l : String}

theorem mem_map_iff_of_injOn (hσ : A.InjOn σ) (hlabels : ∀ m ∈ labels, m ∈ A) (hl : l ∈ A) :
    σ l ∈ labels.map σ ↔ l ∈ labels := by
  refine ⟨fun h => ?_, List.mem_map_of_mem⟩
  obtain ⟨m, hm, he⟩ := List.mem_map.mp h
  exact hσ (hlabels m hm) hl he ▸ hm

theorem nodup_map_iff_of_injOn (hσ : A.InjOn σ) (hlabels : ∀ m ∈ labels, m ∈ A) :
    (labels.map σ).Nodup ↔ labels.Nodup :=
  ⟨List.Nodup.of_map σ, fun h => h.map_on fun x hx y hy he => hσ (hlabels x hx) (hlabels y hy) he⟩

theorem perm_map_iff_of_injOn (hσ : A.InjOn σ) (hlabels : ∀ m ∈ labels, m ∈ A) (hlabels' : ∀ m ∈ labels', m ∈ A)
    (hn : labels.Nodup) (hn' : labels'.Nodup) : (labels.map σ).Perm (labels'.map σ) ↔ labels.Perm labels' := by
  refine ⟨fun h => (List.perm_ext_iff_of_nodup hn hn').mpr fun l => ⟨fun hl => ?_, fun hl => ?_⟩, fun h => h.map σ⟩
  · exact (mem_map_iff_of_injOn hσ hlabels' (hlabels l hl)).mp (h.mem_iff.mp (List.mem_map_of_mem hl))
  · exact (mem_map_iff_of_injOn hσ hlabels (hlabels' l hl)).mp (h.mem_iff.mpr (List.mem_map_of_mem hl))

theorem sharedLabels_map (hσ : A.InjOn σ) (hlabels : ∀ m ∈ labels, m ∈ A) (hlabels' : ∀ m ∈ labels', m ∈ A) :
    sharedLabels (labels.map σ) (labels'.map σ) = (sharedLabels labels labels').map σ := by
  unfold sharedLabels
  rw [List.filter_map]
  refine congrArg _ (List.filter_congr fun l hl => decide_eq_decide.mpr ?_)
  exact mem_map_iff_of_injOn hσ hlabels' (hlabels l hl)

theorem filter_notMem_map (hσ : A.InjOn σ) (hlabels : ∀ m ∈ labels, m ∈ A) (hlabels' : ∀ m ∈ labels', m ∈ A) :
    (labels.map σ).filter (· ∉ labels'.map σ) = (labels.filter (· ∉ labels')).map σ := by
  rw [List.filter_map]
  refine congrArg _ (List.filter_congr fun l hl => decide_eq_decide.mpr (not_congr ?_))
  exact mem_map_iff_of_injOn hσ hlabels' (hlabels l hl)

theorem freeLabels_map (hσ : A.InjOn σ) (hlabels : ∀ m ∈ labels, m ∈ A) (hlabels' : ∀ m ∈ labels', m ∈ A) :
    freeLabels (labels.map σ) (labels'.map σ) = (freeLabels labels labels').map σ := by
  rw [freeLabels, filter_notMem_map hσ hlabels hlabels', filter_notMem_map hσ hlabels' hlabels, freeLabels,
    List.map_append]

/-- Every label keeps its place. -/
theorem idxOf_map_of_injOn (hσ : A.InjOn σ) (hlabels : ∀ m ∈ labels, m ∈ A) (hl : l ∈ A) :
    (labels.map σ).idxOf (σ l) = labels.idxOf l := by
  induction labels with
  | nil => rfl
  | cons m labels ih =>
    obtain ⟨hm, hlabels⟩ := List.forall_mem_cons.mp hlabels
    by_cases he : m = l
    · simp [he]
    · rw [List.map_cons, List.idxOf_cons_ne _ he, List.idxOf_cons_ne _ fun h => he (hσ hm hl h), ih hlabels]

theorem ofIndex_map_of_injOn (hσ : A.InjOn σ) (hlabels : ∀ m ∈ labels, m ∈ A) (hl : l ∈ A) (index : List ℕ) :
    Assignment.ofIndex (labels.map σ) index (σ l) = Assignment.ofIndex labels index l := by
  rw [Assignment.ofIndex, idxOf_map_of_injOn hσ hlabels hl, Assignment.ofIndex]

theorem update_comp_of_injOn (hσ : A.InjOn σ) (hl : l ∈ A) {m : String} (hm : m ∈ A) (ν : Assignment) (i : ℕ) :
    (Function.update ν (σ l) i ∘ σ) m = Function.update (ν ∘ σ) l i m := by
  by_cases he : m = l
  · subst he
    simp
  · rw [Function.comp, Function.update_of_ne fun h => he (hσ hm hl h), Function.update_of_ne he, Function.comp]

/-- **Sums over the values of labels.** -/
theorem sumOver_map (hσ : A.InjOn σ) (n : ℕ) (hlabels : ∀ m ∈ labels, m ∈ A) {F : Assignment → Scalar}
    (hF : DependsOn F A) (ν : Assignment) :
    sumOver n (labels.map σ) (fun μ => F (μ ∘ σ)) ν = sumOver n labels F (ν ∘ σ) := by
  -- Along the labels, with any summand: what is summed over the first one still depends on the same labels.
  induction labels generalizing F with
  | nil => rfl
  | cons l labels ih =>
    obtain ⟨hl, hlabels⟩ := List.forall_mem_cons.mp hlabels
    have hinner : (fun μ : Assignment => addUp ((List.range n).map fun i => F (Function.update μ (σ l) i ∘ σ))) =
        fun μ => (fun μ => addUp ((List.range n).map fun i => F (Function.update μ l i))) (μ ∘ σ) := by
      funext μ
      refine congrArg addUp (List.map_congr_left fun i _ => hF fun m hm => ?_)
      exact update_comp_of_injOn hσ hl hm μ i
    have hdepends := (dependsOn_addUp_update (n := n) hF l).mono Set.sdiff_subset
    rw [List.map_cons, sumOver, sumOver, hinner, ih hlabels hdepends]

end Labels

namespace Tensor

variable {A : Set String} {σ : String → String} {labels labels' source target : List String} {l : String}
  {t t' u u' : Tensor}

/-- **Exchanges of labels.** -/
theorem exchanged_map (hσ : A.InjOn σ) (hsource : ∀ m ∈ source, m ∈ A) (hl : l ∈ A) :
    exchanged (source.map σ) (target.map σ) (σ l) = σ (exchanged source target l) := by
  induction source generalizing target with
  | nil => rfl
  | cons x source ih =>
    obtain ⟨hx, hsource⟩ := List.forall_mem_cons.mp hsource
    cases target with
    | nil => rfl
    | cons y target =>
      have ih : exchanged (source.map σ) (target.map σ) (σ l) = σ (exchanged source target l) := ih hsource
      simp only [exchanged, List.map_cons, List.zip_cons_cons, List.lookup_cons] at ih ⊢
      by_cases he : l = x
      · simp [he]
      · rw [beq_eq_false_iff_ne.mpr he, beq_eq_false_iff_ne.mpr fun h => he (hσ hl hx h)]
        exact ih

/-! ## Relabelled tensors -/

/-- A tensor with the same components, whose labels are changed by a function; all of them belong to a set. -/
structure Relabeled (A : Set String) (σ : String → String) (t t' : Tensor) : Prop where
  mem : ∀ l ∈ t.labels, l ∈ A
  labels : t'.labels = t.labels.map σ
  same : t'.SameComponents t

/-- Renaming all labels of a tensor gives another one. -/
def Renames (σ : String → String) (t t' : Tensor) : Prop := t.rename t.labels (t.labels.map σ) = .ok t'

theorem eq_of_sameComponents (hlabels : u.labels = t.labels) (h : u.SameComponents t) : u = t := by
  obtain ⟨labels, dimension, components, _, _, _⟩ := t
  obtain ⟨labels', dimension', components', _, _, _⟩ := u
  obtain rfl : labels' = labels := hlabels
  obtain rfl : dimension' = dimension := h.dimension
  obtain rfl : components' = components := h.components
  rfl

/-- Every tensor can be relabelled. -/
theorem exists_relabeled (hσ : A.InjOn σ) (ht : ∀ l ∈ t.labels, l ∈ A) : ∃ t', Renames σ t t' ∧ Relabeled A σ t t' := by
  obtain ⟨t', hrename, hlabels, hsame⟩ := t.rename_ok (f := σ) (fun _ hl => hl) (fun l hl hn => absurd hl hn)
    ((nodup_map_iff_of_injOn hσ ht).mpr t.nodup_labels)
  exact ⟨t', hrename, ht, hlabels, hsame⟩

/-- A relabelled tensor is what renaming all labels gives. -/
theorem Relabeled.renames (h : Relabeled A σ t t') (hσ : A.InjOn σ) : Renames σ t t' := by
  obtain ⟨u, hrename, hu⟩ := exists_relabeled hσ h.mem
  have hsame : u.SameComponents t' :=
    ⟨hu.same.dimension.trans h.same.dimension.symm, hu.same.components.trans h.same.components.symm⟩
  rw [Renames, hrename, eq_of_sameComponents (hu.labels.trans h.labels.symm) hsame]

theorem Relabeled.lookup (h : Relabeled A σ t t') (ν : Assignment) : t'.lookup ν = t.lookup (ν ∘ σ) :=
  lookup_relabeled h.labels h.same ν

theorem Relabeled.labels_eq_nil (h : Relabeled A σ t t') : t'.labels = [] ↔ t.labels = [] := by
  rw [h.labels, List.map_eq_nil_iff]

theorem Relabeled.map (h : Relabeled A σ t t') (f : Scalar → Scalar) : Relabeled A σ (t.map f) (t'.map f) :=
  ⟨h.mem, h.labels, h.same.dimension, congrArg (Array.map f) h.same.components⟩

/-- Tensors that are tabulated. -/
theorem relabeled_tabulate (hσ : A.InjOn σ) (hlabels : ∀ l ∈ labels, l ∈ A) (heq : labels' = labels.map σ)
    (nodup : labels.Nodup) (nodup' : labels'.Nodup) (n : ℕ) {F F' : Assignment → Scalar}
    (hF : DependsOn F {l | l ∈ labels}) (hFF : ∀ ν, F' ν = F (ν ∘ σ)) :
    Relabeled A σ (tabulate labels nodup n F) (tabulate labels' nodup' n F') := by
  subst heq
  have hrange : (if labels.map σ = [] then 0 else n) = if labels = [] then 0 else n := by
    simp only [List.map_eq_nil_iff]
  have hvalue : ∀ index, F' (.ofIndex (labels.map σ) index) = F (.ofIndex labels index) := by
    intro index
    rw [hFF]
    exact hF fun l hl => ofIndex_map_of_injOn hσ hlabels (hlabels l hl) index
  refine ⟨hlabels, rfl, hrange, ?_⟩
  show ((multiIndices (if labels.map σ = [] then 0 else n) (labels.map σ).length).map fun index =>
      F' (.ofIndex (labels.map σ) index)).toArray =
    ((multiIndices (if labels = [] then 0 else n) labels.length).map fun index => F (.ofIndex labels index)).toArray
  rw [hrange, List.length_map]
  simp only [hvalue]

/-- Tensors that are tabulated over the axes of relabelled ones. -/
theorem Relabeled.tabulate (h : Relabeled A σ t t') (hσ : A.InjOn σ) {F F' : Assignment → Scalar}
    (hF : DependsOn F {l | l ∈ t.labels}) (hFF : ∀ ν, F' ν = F (ν ∘ σ)) :
    Relabeled A σ (tabulate t.labels t.nodup_labels t.dimension F)
      (tabulate t'.labels t'.nodup_labels t'.dimension F') := by
  rw [h.same.dimension]
  exact relabeled_tabulate hσ h.mem h.labels _ _ _ hF hFF

/-! ## Sums and products -/

/-- **Sums.** -/
theorem Relabeled.add (h : Relabeled A σ t t') (h' : Relabeled A σ u u') (hσ : A.InjOn σ) :
    Agree (Relabeled A σ) (t.add u) (t'.add u') := by
  have hperm : t'.labels.Perm u'.labels ↔ t.labels.Perm u.labels := by
    rw [h.labels, h'.labels]
    exact perm_map_iff_of_injOn hσ h.mem h'.mem t.nodup_labels u.nodup_labels
  have hiff : t'.labels.Perm u'.labels ∧ t'.dimension = u'.dimension ↔
      t.labels.Perm u.labels ∧ t.dimension = u.dimension := by
    rw [hperm, h.same.dimension, h'.same.dimension]
  by_cases hfit : t.labels.Perm u.labels ∧ t.dimension = u.dimension
  · rw [add_ok hfit.1 hfit.2, add_ok (hiff.mpr hfit).1 (hiff.mpr hfit).2]
    refine Agree.ok (h.tabulate hσ (dependsOn_add hfit.1) fun ν => ?_)
    rw [h.lookup, h'.lookup]
  · obtain ⟨error, herror⟩ := add_error hfit
    obtain ⟨error', herror'⟩ := add_error (mt hiff.mp hfit)
    rw [herror, herror']
    exact Agree.error _ _

theorem Relabeled.sub (h : Relabeled A σ t t') (h' : Relabeled A σ u u') (hσ : A.InjOn σ) :
    Agree (Relabeled A σ) (t.sub u) (t'.sub u') := h.add (h'.map _) hσ

theorem Relabeled.axisRange (h : Relabeled A σ t t') (h' : Relabeled A σ u u') : axisRange t' u' = axisRange t u := by
  simp only [Tensor.axisRange, h.labels_eq_nil, h.same.dimension, h'.same.dimension]

theorem Relabeled.contraction (h : Relabeled A σ t t') (h' : Relabeled A σ u u') (hσ : A.InjOn σ) :
    Relabeled A σ (contraction t u) (contraction t' u') := by
  have hfree : freeLabels t'.labels u'.labels = (freeLabels t.labels u.labels).map σ := by
    rw [h.labels, h'.labels, freeLabels_map hσ h.mem h'.mem]
  have hshared : ∀ l ∈ sharedLabels t.labels u.labels, l ∈ A := fun l hl => h.mem l (mem_sharedLabels.mp hl).1
  have hmem : ∀ l ∈ freeLabels t.labels u.labels, l ∈ A := fun l hl =>
    (mem_freeLabels.mp hl).elim (fun hl => h.mem l hl.1) fun hl => h'.mem l hl.1
  unfold Tensor.contraction
  rw [h.axisRange h']
  refine relabeled_tabulate hσ hmem hfree _ _ _ (dependsOn_contraction t u) fun ν => ?_
  have hmul : (fun μ => t'.lookup μ * u'.lookup μ) = fun μ => (fun μ => t.lookup μ * u.lookup μ) (μ ∘ σ) :=
    funext fun μ => by rw [h.lookup, h'.lookup]
  rw [hmul, h.labels, h'.labels, sharedLabels_map hσ h.mem h'.mem]
  exact sumOver_map hσ _ hshared ((dependsOn_mul t u).mono fun l hl => hl.elim (h.mem l) (h'.mem l)) ν

/-- **Products**, with contracted labels renamed as well. -/
theorem Relabeled.product (h : Relabeled A σ t t') (h' : Relabeled A σ u u') (hσ : A.InjOn σ) :
    AgreeExactly (Relabeled A σ) (t.product u) (t'.product u') := by
  have hshared : sharedLabels t'.labels u'.labels = [] ↔ sharedLabels t.labels u.labels = [] := by
    rw [h.labels, h'.labels, sharedLabels_map hσ h.mem h'.mem, List.map_eq_nil_iff]
  rw [product_eq, product_eq]
  refine AgreeExactly.ite ?_ (fun _ => ?_) fun _ => AgreeExactly.ite ?_ (fun _ => rfl) fun _ => h.contraction h' hσ
  · rw [ne_eq, ne_eq, h.labels_eq_nil, h'.labels_eq_nil, h.same.dimension, h'.same.dimension]
  · rw [h.same.dimension, h'.same.dimension]
    exact rfl
  · rw [ne_eq, hshared, h.axisRange h']

/-! ## Symmetrization -/

theorem Relabeled.checkLabels (h : Relabeled A σ t t') (hσ : A.InjOn σ) (hlabels : ∀ l ∈ labels, l ∈ A) :
    Agree (fun _ _ => ∀ l ∈ labels, l ∈ t.labels) (t.checkLabels labels) (t'.checkLabels (labels.map σ)) := by
  refine checkLabels_agree ?_
  have hmem : (∀ l ∈ labels, σ l ∈ t.labels.map σ) ↔ ∀ l ∈ labels, l ∈ t.labels :=
    forall₂_congr fun l hl => mem_map_iff_of_injOn hσ h.mem (hlabels l hl)
  rw [checkLabels_eq_ok, checkLabels_eq_ok, nodup_map_iff_of_injOn hσ hlabels, h.labels, List.forall_mem_map, hmem]

theorem Relabeled.permutedSum (h : Relabeled A σ t t') (hσ : A.InjOn σ) {blocks : List (List String)}
    (hblocks : ∀ l ∈ blocks.flatten, l ∈ t.labels) (signed : Bool) :
    Relabeled A σ (t.permutedSum blocks signed) (t'.permutedSum (blocks.map (List.map σ)) signed) := by
  have hterm : ∀ ν p, t'.permutedTerm (blocks.map (List.map σ)) signed ν p =
      t.permutedTerm blocks signed (ν ∘ σ) p := by
    intro ν p
    have hsource : (p.flatMap fun k => (blocks.map (List.map σ)).getD k []) =
        (p.flatMap fun k => blocks.getD k []).map σ := by
      rw [List.map_flatMap]
      refine List.flatMap_congr fun k _ => ?_
      rw [List.getD_eq_getElem?_getD, List.getD_eq_getElem?_getD, List.getElem?_map]
      cases blocks[k]? <;> rfl
    have hmem : ∀ l ∈ p.flatMap fun k => blocks.getD k [], l ∈ A := by
      intro l hl
      obtain ⟨k, -, hl⟩ := List.mem_flatMap.mp hl
      refine h.mem l (hblocks l ?_)
      rw [List.getD_eq_getElem?_getD] at hl
      cases hk : blocks[k]? with
      | none => simp [hk] at hl
      | some block =>
        rw [hk] at hl
        exact List.mem_flatten.mpr ⟨block, List.mem_of_getElem? hk, hl⟩
    have hlookup : t'.lookup (ν ∘ exchanged ((p.flatMap fun k => blocks.getD k []).map σ) (blocks.flatten.map σ)) =
        t.lookup ((ν ∘ σ) ∘ exchanged (p.flatMap fun k => blocks.getD k []) blocks.flatten) := by
      rw [h.lookup]
      refine t.dependsOn_lookup fun l hl => ?_
      exact congrArg ν (exchanged_map hσ hmem (h.mem l hl))
    simp only [permutedTerm, hsource, ← List.map_flatten, hlookup]
  refine h.tabulate hσ (dependsOn_permutedTerms hblocks signed) fun ν => ?_
  rw [List.length_map]
  exact congrArg addUp (List.map_congr_left fun p _ => hterm ν p)

theorem Relabeled.normalize (h : Relabeled A σ t t') (scaled : Bool) (n : ℕ) :
    Relabeled A σ (t.normalize scaled n) (t'.normalize scaled n) := by
  unfold Tensor.normalize
  split
  · exact h.map _
  · exact h

theorem map_singletons (labels : List String) :
    ((labels.map σ).map fun l => [l]) = (labels.map fun l => [l]).map (List.map σ) := by
  rw [List.map_map, List.map_map]
  rfl

theorem Relabeled.symmetrize (h : Relabeled A σ t t') (hσ : A.InjOn σ) (hlabels : ∀ l ∈ labels, l ∈ A)
    (scaled : Bool) :
    Agree (Relabeled A σ) (t.symmetrize labels scaled) (t'.symmetrize (labels.map σ) scaled) := by
  refine (h.checkLabels hσ hlabels).bind fun _ _ hmem => Agree.ok ?_
  rw [map_singletons, List.length_map]
  exact (h.permutedSum hσ (by rwa [flatten_singletons]) false).normalize scaled _

theorem Relabeled.antisymmetrize (h : Relabeled A σ t t') (hσ : A.InjOn σ) (hlabels : ∀ l ∈ labels, l ∈ A)
    (scaled : Bool) :
    Agree (Relabeled A σ) (t.antisymmetrize labels scaled) (t'.antisymmetrize (labels.map σ) scaled) := by
  refine (h.checkLabels hσ hlabels).bind fun _ _ hmem => Agree.ok ?_
  rw [map_singletons, List.length_map]
  exact (h.permutedSum hσ (by rwa [flatten_singletons]) true).normalize scaled _

theorem Relabeled.blockSymmetrize (h : Relabeled A σ t t') (hσ : A.InjOn σ) {blocks : List (List String)}
    (hblocks : ∀ l ∈ blocks.flatten, l ∈ A) (scaled : Bool) :
    Agree (Relabeled A σ) (t.blockSymmetrize blocks scaled)
      (t'.blockSymmetrize (blocks.map (List.map σ)) scaled) := by
  cases blocks with
  | nil => exact Agree.ok h
  | cons first blocks =>
    have hlengths : (((first :: blocks).map (List.map σ)).any fun block => block.length ≠ (first.map σ).length) =
        (first :: blocks).any fun block => block.length ≠ first.length := by
      simp only [List.any_map, Function.comp_def, List.length_map]
    have hcheck := h.checkLabels hσ hblocks
    rw [List.map_flatten] at hcheck
    unfold Tensor.blockSymmetrize
    simp only [List.map_cons] at hlengths hcheck ⊢
    refine Agree.ite (by rw [hlengths]) trivial ?_
    refine hcheck.bind fun _ _ hmem => Agree.ok ?_
    rw [List.length_cons, List.length_cons, List.length_map]
    exact (h.permutedSum hσ hmem false).normalize scaled _

/-! ## All operations -/

/-- **Operations are natural in the labels.** For a function that is injective on the labels of the operands and on
those that are given, renaming the labels first and then applying an operation fails exactly if the operation on
the original tensors fails, and gives otherwise its result with the labels that remain renamed. The function may
permute labels among themselves, and it also renames those that the product sums over. -/
theorem operations_natural (σ : String → String) (t : Tensor) :
    (∀ u : Tensor, Set.InjOn σ {l | l ∈ t.labels ∨ l ∈ u.labels} → ∃ t' u', Renames σ t t' ∧ Renames σ u u' ∧
      Agree (Renames σ) (t.add u) (t'.add u') ∧ Agree (Renames σ) (t.sub u) (t'.sub u') ∧
      AgreeExactly (Renames σ) (t.product u) (t'.product u')) ∧
    (∀ labels scaled, Set.InjOn σ {l | l ∈ t.labels ∨ l ∈ labels} → ∃ t', Renames σ t t' ∧
      Agree (Renames σ) (t.symmetrize labels scaled) (t'.symmetrize (labels.map σ) scaled) ∧
      Agree (Renames σ) (t.antisymmetrize labels scaled) (t'.antisymmetrize (labels.map σ) scaled)) ∧
    ∀ blocks scaled, Set.InjOn σ {l | l ∈ t.labels ∨ l ∈ blocks.flatten} → ∃ t', Renames σ t t' ∧
      Agree (Renames σ) (t.blockSymmetrize blocks scaled)
        (t'.blockSymmetrize (blocks.map (List.map σ)) scaled) := by
  refine ⟨fun u hσ => ?_, fun labels scaled hσ => ?_, fun blocks scaled hσ => ?_⟩
  · obtain ⟨t', ht', h⟩ := exists_relabeled hσ fun l hl => .inl hl
    obtain ⟨u', hu', h'⟩ := exists_relabeled hσ fun l hl => .inr hl
    refine ⟨t', u', ht', hu', (h.add h' hσ).mono fun _ _ hr => hr.renames hσ,
      (h.sub h' hσ).mono fun _ _ hr => hr.renames hσ, (h.product h' hσ).mono fun _ _ hr => hr.renames hσ⟩
  · obtain ⟨t', ht', h⟩ := exists_relabeled hσ fun l hl => .inl hl
    have hlabels : ∀ l ∈ labels, l ∈ {l | l ∈ t.labels ∨ l ∈ labels} := fun l hl => .inr hl
    exact ⟨t', ht', (h.symmetrize hσ hlabels scaled).mono fun _ _ hr => hr.renames hσ,
      (h.antisymmetrize hσ hlabels scaled).mono fun _ _ hr => hr.renames hσ⟩
  · obtain ⟨t', ht', h⟩ := exists_relabeled hσ fun l hl => .inl hl
    have hblocks : ∀ l ∈ blocks.flatten, l ∈ {l | l ∈ t.labels ∨ l ∈ blocks.flatten} := fun l hl => .inr hl
    exact ⟨t', ht', (h.blockSymmetrize hσ hblocks scaled).mono fun _ _ hr => hr.renames hσ⟩

/-- Three labels in a cycle: the label that the product sums over becomes one that it keeps, and labels become others
of the same tensor. -/
theorem operations_natural_cycle :
    let σ : String → String := Equiv.swap "i" "j" * Equiv.swap "j" "k"
    let A := symbolic ["i", "j"] (by decide) 2 "A"
    let A' := symbolic ["j", "k"] (by decide) 2 "A"
    let B := symbolic ["j", "k"] (by decide) 2 "B"
    let B' := symbolic ["k", "i"] (by decide) 2 "B"
    Renames σ A A' ∧ Renames σ B B' ∧
      (∃ c c', A.product B = .ok c ∧ A'.product B' = .ok c' ∧ Renames σ c c') ∧
      (∃ r r', A.symmetrize ["i", "j"] true = .ok r ∧ A'.symmetrize ["j", "k"] true = .ok r' ∧ Renames σ r r') ∧
      ∃ r r', A.blockSymmetrize [["i"], ["j"]] true = .ok r ∧ A'.blockSymmetrize [["j"], ["k"]] true = .ok r' ∧
        Renames σ r r' := by
  intro σ A A' B B'
  have hσ : ∀ s : Set String, s.InjOn σ := fun s => (Equiv.injective _).injOn
  have hA : Renames σ A A' := rfl
  have hB : Renames σ B B' := rfl
  obtain ⟨t, u, ht, hu, -, -, hproduct⟩ := (operations_natural σ A).1 B (hσ _)
  obtain ⟨t₂, ht₂, hsymmetrize, -⟩ := (operations_natural σ A).2.1 ["i", "j"] true (hσ _)
  obtain ⟨t₃, ht₃, hblock⟩ := (operations_natural σ A).2.2 [["i"], ["j"]] true (hσ _)
  obtain rfl : A' = t := Except.ok.inj (hA.symm.trans ht)
  obtain rfl : B' = u := Except.ok.inj (hB.symm.trans hu)
  obtain rfl : A' = t₂ := Except.ok.inj (hA.symm.trans ht₂)
  obtain rfl : A' = t₃ := Except.ok.inj (hA.symm.trans ht₃)
  obtain ⟨c, hc, -⟩ := exists_product (a := A) (b := B) (by decide) (fun _ => rfl) (fun _ => rfl)
  obtain ⟨c', hc', hcc'⟩ := hproduct.exists_ok hc
  obtain ⟨r, hr, hrr⟩ := hsymmetrize.exists_ok (symmetrize_ok (by decide) (by decide) true)
  obtain ⟨b, hb⟩ : ∃ b, A.blockSymmetrize [["i"], ["j"]] true = .ok b := ⟨_, rfl⟩
  obtain ⟨b', hb', hbb'⟩ := hblock.exists_ok hb
  exact ⟨hA, hB, ⟨c, c', hc, hc', hcc'⟩, ⟨_, r, symmetrize_ok (by decide) (by decide) true, hr, hrr⟩,
    b, b', hb, hb', hbb'⟩

end Tensor

end TensorEquations
