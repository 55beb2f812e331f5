import TensorEquations.Proofs.Tensor.Equality
import TensorEquations.Proofs.Tensor.Projector
import TensorEquations.Proofs.Tensor.Renaming

/-!
# Symmetrization over blocks of labels

* `blockMap` — the labels of some blocks become those of other blocks, at the same places; `blockMap_comp` and
  `blockMap_blockMap` say that the order of the pairs of blocks does not count, and compose two of these functions.
* `blockSum` — the sum over all orders of some blocks; `blockSum_comp` and `blockSum_blockMap` say **that it does not
  change when whole blocks are permuted**, in the list or on the axes.
* `Tensor.AreBlocks`, `Tensor.blockSymmetrize_isOk_iff` — the blocks that are accepted.
* `Tensor.blockSymmetrize_denotes` — **the components that symmetrization over blocks gives.**
* `Tensor.symmetrizers_agree` — **the three symmetrizers without signs agree where they overlap.**
-/

namespace TensorEquations

open Equiv (Perm)
open Tensor

/-! ## Blocks of labels -/

section Blocks

variable {n : ℕ} {f g h : Fin n → List String} {l m : String} {i : Fin n} {q : ℕ}

/-- The labels of the blocks `f` become those of the blocks `g` at the same places, and other labels are kept. -/
def blockMap (f g : Fin n → List String) : String → String :=
  exchanged (List.ofFn f).flatten (List.ofFn g).flatten

theorem zip_flatten_ofFn : ∀ {n : ℕ} {f g : Fin n → List String}, (∀ i, (f i).length = (g i).length) →
    (List.ofFn f).flatten.zip (List.ofFn g).flatten = (List.ofFn fun i => (f i).zip (g i)).flatten
  | 0, _, _, _ => by simp
  | n + 1, f, g, hlength => by
    rw [List.ofFn_succ, List.ofFn_succ, List.ofFn_succ, List.flatten_cons, List.flatten_cons, List.flatten_cons,
      List.zip_append (hlength 0), zip_flatten_ofFn fun i => hlength i.succ]

theorem length_flatten_ofFn (hlength : ∀ i, (f i).length = (g i).length) :
    (List.ofFn f).flatten.length = (List.ofFn g).flatten.length := by
  simp [List.length_flatten, List.map_ofFn, Function.comp_def, hlength]

theorem mem_flatten_ofFn {α : Type} {f : Fin n → List α} {x : α} : x ∈ (List.ofFn f).flatten ↔ ∃ i, x ∈ f i := by
  simp [List.mem_flatten, List.mem_ofFn]

theorem exchanged_of_notMem {source target : List String} (hl : l ∉ source) : exchanged source target l = l := by
  rw [exchanged, lookup_of_notMem fun m hm => hl (List.of_mem_zip hm).1]
  rfl

theorem exchanged_of_mem {source target : List String} (hn : source.Nodup) (hlength : source.length = target.length)
    (hm : (l, m) ∈ source.zip target) : exchanged source target l = m := by
  have hkeys : ((source.zip target).map Prod.fst).Nodup := by rwa [List.map_fst_zip hlength.le]
  rw [exchanged, lookup_of_mem hkeys hm]
  rfl

theorem map_exchanged {source target : List String} (hn : source.Nodup) (hlength : source.length = target.length) :
    source.map (exchanged source target) = target := by
  refine List.ext_getElem (by rw [List.length_map, hlength]) fun k hk hk' => ?_
  have hlt : k < source.length := by rwa [List.length_map] at hk
  rw [List.getElem_map]
  exact exchanged_of_mem hn hlength
    (mem_zip_of_getElem? (List.getElem?_eq_getElem hlt) (List.getElem?_eq_getElem hk'))

theorem blockMap_of_notMem (hl : ∀ i, l ∉ f i) : blockMap f g l = l :=
  exchanged_of_notMem fun hmem => (mem_flatten_ofFn.mp hmem).elim hl

section Place

variable (hn : (List.ofFn f).flatten.Nodup) (hlength : ∀ i, (f i).length = (g i).length)

include hn hlength in
/-- A label at a place of a block becomes the label at that place. -/
theorem blockMap_of_getElem? (hl : (f i)[q]? = some l) (hm : (g i)[q]? = some m) : blockMap f g l = m := by
  refine exchanged_of_mem hn (length_flatten_ofFn hlength) ?_
  rw [zip_flatten_ofFn hlength]
  exact mem_flatten_ofFn.mpr ⟨i, mem_zip_of_getElem? hl hm⟩

include hn hlength in
/-- The labels of the blocks and the others. -/
theorem blockMap_cases (l : String) :
    (∃ i, ∃ q : ℕ, (f i)[q]? = some l ∧ (g i)[q]? = some (blockMap f g l)) ∨ (∀ i, l ∉ f i) ∧ blockMap f g l = l := by
  by_cases hl : ∃ i, l ∈ f i
  · obtain ⟨i, hi⟩ := hl
    obtain ⟨q, hq⟩ := List.getElem?_of_mem hi
    have hlt : q < (g i).length := hlength i ▸ (List.getElem?_eq_some_iff.mp hq).1
    have hm := List.getElem?_eq_getElem hlt
    exact .inl ⟨i, q, hq, (blockMap_of_getElem? hn hlength hq hm).symm ▸ hm⟩
  · have hl := not_exists.mp hl
    exact .inr ⟨hl, blockMap_of_notMem hl⟩

/-- Blocks in another order have the same labels. -/
theorem nodup_flatten_comp (hn : (List.ofFn f).flatten.Nodup) (σ : Perm (Fin n)) :
    (List.ofFn (f ∘ σ)).flatten.Nodup :=
  (σ.ofFn_comp_perm f).flatten.nodup_iff.mpr hn

include hn hlength in
/-- **The order of the pairs of blocks does not count.** -/
theorem blockMap_comp (σ : Perm (Fin n)) : blockMap (f ∘ σ) (g ∘ σ) = blockMap f g := by
  funext l
  obtain ⟨i, q, hl, hm⟩ | ⟨hl, he⟩ := blockMap_cases hn hlength l
  · refine blockMap_of_getElem? (i := σ.symm i) (q := q) (nodup_flatten_comp hn σ) (fun i => hlength (σ i)) ?_ ?_
    · rwa [Function.comp_apply, σ.apply_symm_apply]
    · rwa [Function.comp_apply, σ.apply_symm_apply]
  · rw [he, blockMap_of_notMem (f := f ∘ σ) fun i => hl (σ i)]

include hn hlength in
/-- **Two of these functions, one after the other.** -/
theorem blockMap_blockMap (hn' : (List.ofFn g).flatten.Nodup) (hlength' : ∀ i, (g i).length = (h i).length)
    (hmem : ∀ i, ∀ l ∈ g i, ∃ j, l ∈ f j) : blockMap g h ∘ blockMap f g = blockMap f h := by
  funext l
  rw [Function.comp_apply]
  obtain ⟨i, q, hl, hm⟩ | ⟨hl, he⟩ := blockMap_cases hn hlength l
  · have hlt : q < (h i).length := hlength' i ▸ (List.getElem?_eq_some_iff.mp hm).1
    have hk := List.getElem?_eq_getElem hlt
    rw [blockMap_of_getElem? hn' hlength' hm hk,
      blockMap_of_getElem? hn (fun i => (hlength i).trans (hlength' i)) hl hk]
  · rw [he, blockMap_of_notMem hl, blockMap_of_notMem fun i hi => (hmem i l hi).elim hl]

include hn in
theorem blockMap_self : blockMap f f = id := by
  funext l
  obtain ⟨i, q, hl, hm⟩ | ⟨-, he⟩ := blockMap_cases hn (fun _ => rfl) l
  · exact Option.some.inj (hm.symm.trans hl)
  · exact he

end Place

/-- Blocks of one length without a label that stands twice. -/
structure AreBlocks (f : Fin n → List String) : Prop where
  length : ∀ i j, (f i).length = (f j).length
  nodup : (List.ofFn f).flatten.Nodup

theorem AreBlocks.comp (hf : AreBlocks f) (σ : Perm (Fin n)) : AreBlocks (f ∘ σ) :=
  ⟨fun i j => hf.length (σ i) (σ j), nodup_flatten_comp hf.nodup σ⟩

/-- What blocks do to labels is undone the other way round. -/
theorem AreBlocks.blockMap_injective (hf : AreBlocks f) (σ : Perm (Fin n)) :
    Function.Injective (blockMap f (f ∘ σ)) := by
  have hmem : ∀ i, ∀ l ∈ (f ∘ σ) i, ∃ j, l ∈ f j := fun i l hl => ⟨σ i, hl⟩
  have hback : blockMap (f ∘ σ) f ∘ blockMap f (f ∘ σ) = id :=
    (blockMap_blockMap hf.nodup (fun i => hf.length _ _) (hf.comp σ).nodup (fun i => hf.length _ _) hmem).trans
      (blockMap_self hf.nodup)
  exact Function.LeftInverse.injective (congrFun hback)

/-! ## Sums over the orders of blocks -/

/-- The sum over all orders of some blocks. -/
noncomputable def blockSum (f : Fin n → List String) (F : Assignment → Poly) (ν : Assignment) : Poly :=
  ∑ σ : Perm (Fin n), F (ν ∘ blockMap (f ∘ σ) f)

/-- **A sum over all orders of blocks does not change when the list of the blocks is permuted.** -/
theorem blockSum_comp (hf : AreBlocks f) (F : Assignment → Poly) (τ : Perm (Fin n)) :
    blockSum (f ∘ τ) F = blockSum f F := by
  funext ν
  have hterm : ∀ σ : Perm (Fin n), blockMap ((f ∘ τ) ∘ σ) (f ∘ τ) = blockMap (f ∘ MulAut.conj τ σ) f := by
    intro σ
    rw [← blockMap_comp (hf.comp _).nodup (fun i => hf.length _ _) τ]
    congr 1
    funext i
    simp
  simp only [blockSum, hterm]
  exact Equiv.sum_comp (MulAut.conj τ).toEquiv fun σ => F (ν ∘ blockMap (f ∘ σ) f)

/-- **Nor when whole blocks are permuted on the axes.** -/
theorem blockSum_blockMap (hf : AreBlocks f) (F : Assignment → Poly) (ν : Assignment) (τ : Perm (Fin n)) :
    blockSum f F (ν ∘ blockMap f (f ∘ τ)) = blockSum f F ν := by
  have hterm : ∀ σ : Perm (Fin n), blockMap f (f ∘ τ) ∘ blockMap (f ∘ σ) f = blockMap (f ∘ (σ * τ⁻¹ : Perm _)) f := by
    intro σ
    have hmem : ∀ i, ∀ l ∈ f i, ∃ j, l ∈ (f ∘ σ) j := fun i l hl =>
      ⟨σ.symm i, by rwa [Function.comp_apply, σ.apply_symm_apply]⟩
    have hback : (f ∘ (σ * τ⁻¹ : Perm _)) ∘ τ = f ∘ σ := by
      funext i
      simp
    have hcomp : blockMap f (f ∘ τ) ∘ blockMap (f ∘ σ) f = blockMap (f ∘ σ) (f ∘ τ) :=
      blockMap_blockMap (hf.comp σ).nodup (fun i => hf.length _ _) hf.nodup (fun i => hf.length _ _) hmem
    rw [hcomp, ← hback, blockMap_comp (hf.comp _).nodup (fun i => hf.length _ _) τ]
  simp only [blockSum, Function.comp_assoc, hterm]
  exact Equiv.sum_comp (Equiv.mulRight τ⁻¹) fun σ => F (ν ∘ blockMap (f ∘ σ) f)

end Blocks

namespace Tensor

open MvPolynomial (C)
open Scalar (SamePolynomial)

variable {t r : Tensor} {n : ℕ} {f : Fin n → List String} {blocks blocks' : List (List String)} {ν : Assignment}
  {scaled : Bool}

/-! ## The blocks that are accepted -/

/-- Blocks of one length whose labels are pairwise different labels of the tensor. -/
structure AcceptsBlocks (t : Tensor) (blocks : List (List String)) : Prop where
  length : ∀ b ∈ blocks, ∀ b' ∈ blocks, b.length = b'.length
  nodup : blocks.flatten.Nodup
  mem : ∀ l ∈ blocks.flatten, l ∈ t.labels

/-- The result of symmetrization over blocks. -/
def blockSymmetrized (t : Tensor) (blocks : List (List String)) (scaled : Bool) : Tensor :=
  if blocks = [] then t else (t.permutedSum blocks false).normalize scaled blocks.length

theorem any_length_ne_iff {first : List String} :
    ((first :: blocks).any fun b => b.length ≠ first.length) = true ↔
      ¬ ∀ b ∈ first :: blocks, ∀ b' ∈ first :: blocks, b.length = b'.length := by
  rw [← not_iff_not, not_not, Bool.not_eq_true, List.any_eq_false]
  simp only [decide_eq_true_eq, ne_eq, not_not]
  exact ⟨fun h b hb b' hb' => (h b hb).trans (h b' hb').symm, fun h b hb => h b hb first List.mem_cons_self⟩

theorem blockSymmetrize_ok (h : t.AcceptsBlocks blocks) (scaled : Bool) :
    t.blockSymmetrize blocks scaled = .ok (t.blockSymmetrized blocks scaled) := by
  cases blocks with
  | nil => rfl
  | cons first rest =>
    rw [blockSymmetrize, if_neg fun hany => any_length_ne_iff.mp hany h.length,
      checkLabels_eq_ok.mpr ⟨h.mem, h.nodup⟩]
    rfl

/-- **Other blocks are refused.** -/
theorem acceptsBlocks_of_ok (h : t.blockSymmetrize blocks scaled = .ok r) : t.AcceptsBlocks blocks := by
  cases blocks with
  | nil => exact ⟨by simp, by simp, by simp⟩
  | cons first rest =>
    rw [blockSymmetrize] at h
    by_cases hany : ((first :: rest).any fun b => b.length ≠ first.length) = true
    · rw [if_pos hany] at h
      cases h
    · rw [if_neg hany] at h
      cases hcheck : t.checkLabels (first :: rest).flatten with
      | error error =>
        rw [hcheck] at h
        cases h
      | ok =>
        obtain ⟨hmem, hn⟩ := checkLabels_eq_ok.mp hcheck
        exact ⟨not_not.mp fun hlength => hany (any_length_ne_iff.mpr hlength), hn, hmem⟩

theorem AcceptsBlocks.areBlocks (h : t.AcceptsBlocks (List.ofFn f)) : AreBlocks f :=
  ⟨fun i j => h.length _ (List.mem_ofFn.mpr ⟨i, rfl⟩) _ (List.mem_ofFn.mpr ⟨j, rfl⟩), h.nodup⟩

theorem AcceptsBlocks.perm (h : t.AcceptsBlocks blocks) (hperm : blocks'.Perm blocks) : t.AcceptsBlocks blocks' :=
  ⟨fun b hb b' hb' => h.length b (hperm.mem_iff.mp hb) b' (hperm.mem_iff.mp hb'), hperm.flatten.nodup_iff.mpr h.nodup,
    fun l hl => h.mem l (hperm.flatten.mem_iff.mp hl)⟩

/-- Blocks in another order, as a family. -/
theorem exists_comp_perm (h : blocks.Perm (List.ofFn f)) : ∃ σ : Perm (Fin n), blocks = List.ofFn (f ∘ σ) := by
  have hplaces : (List.range n).map (fun k => (List.ofFn f).getD k []) = List.ofFn f :=
    List.ext_getElem (by simp) fun k hk _ => by simp [show k < n by simpa using hk]
  have hcomp := congrFun₂ (List.eq_map_comp_perm fun k => (List.ofFn f).getD k []) blocks (List.range n)
  obtain ⟨p, rfl, hp⟩ := hcomp.mpr (hplaces.symm ▸ h)
  obtain ⟨σ, rfl⟩ := perm_range_iff.mp hp
  refine ⟨σ, ?_⟩
  rw [arrangement, List.map_ofFn]
  refine congrArg List.ofFn (funext fun i => ?_)
  simp

/-! ## Components -/

theorem labels_blockSymmetrized : (t.blockSymmetrized blocks scaled).labels = t.labels := by
  unfold blockSymmetrized
  split
  · rfl
  · cases scaled <;> rfl

theorem dimension_blockSymmetrized : (t.blockSymmetrized blocks scaled).dimension = t.dimension := by
  unfold blockSymmetrized
  split
  · rfl
  · cases scaled <;> exact t.range_eq

theorem inRange_blockSymmetrized : (t.blockSymmetrized blocks scaled).InRange ν ↔ t.InRange ν := by
  rw [InRange, labels_blockSymmetrized, dimension_blockSymmetrized]
  rfl

theorem flatMap_arrangement_blocks (f : Fin n → List String) (σ : Perm (Fin n)) :
    ((arrangement σ).flatMap fun k => (List.ofFn f).getD k []) = (List.ofFn (f ∘ σ)).flatten := by
  rw [List.flatMap_def, arrangement, List.map_ofFn]
  refine congrArg List.flatten (congrArg List.ofFn (funext fun i => ?_))
  simp

/-- The components of a sum over the orders of blocks. -/
theorem permutedSum_blocks_denotes (ht : t.IsPolynomial) (hb : t.AcceptsBlocks (List.ofFn f)) (hν : t.InRange ν) :
    ((t.permutedSum (List.ofFn f) false).lookup ν).Denotes (blockSum f (fun μ => (t.lookup μ).poly) ν) := by
  have hterm : ∀ σ : Perm (Fin n), t.permutedTerm (List.ofFn f) false ν (arrangement σ) =
      t.lookup (ν ∘ blockMap (f ∘ σ) f) := by
    intro σ
    simp only [permutedTerm, flatMap_arrangement_blocks]
    rfl
  have hall : ∀ p ∈ arrangements (List.range n), (t.permutedTerm (List.ofFn f) false ν p).isPolynomial = true := by
    intro p hp
    obtain ⟨σ, rfl⟩ := perm_range_iff.mp (mem_arrangements.mp hp)
    exact hterm σ ▸ ht.lookup _
  have hpolys : (((arrangements (List.range n)).map (t.permutedTerm (List.ofFn f) false ν)).map Scalar.poly).sum =
      blockSum f (fun μ => (t.lookup μ).poly) ν := by
    rw [List.map_map, sum_arrangements]
    exact Finset.sum_congr rfl fun σ _ => congrArg Scalar.poly (hterm σ)
  rw [lookup_permutedSum hb.mem false hν, List.length_ofFn, ← hpolys]
  exact addUp_denotes (List.forall_mem_map.mpr hall)

/-- **The components that symmetrization over blocks gives.** -/
theorem blockSymmetrized_denotes (ht : t.IsPolynomial) (hb : t.AcceptsBlocks (List.ofFn f)) (scaled : Bool)
    (hν : t.InRange ν) : ((t.blockSymmetrized (List.ofFn f) scaled).lookup ν).Denotes
      (C (normalization scaled n) * blockSum f (fun μ => (t.lookup μ).poly) ν) := by
  unfold blockSymmetrized
  split
  · next hempty =>
    -- Without blocks there is one order, and nothing to exchange.
    obtain rfl : n = 0 := by simpa using hempty
    have hone : normalization scaled 0 = 1 := by cases scaled <;> simp [normalization]
    have hsum : blockSum f (fun μ => (t.lookup μ).poly) ν = (t.lookup ν).poly := by
      rw [blockSum, Fintype.sum_unique, Subsingleton.elim (f ∘ _) f, blockMap_self hb.nodup]
      rfl
    rw [hone, hsum, map_one, one_mul]
    exact Scalar.denotes_poly (ht.lookup ν)
  · rw [List.length_ofFn]
    exact normalize_denotes (inRange_tabulate.mpr hν) (permutedSum_blocks_denotes ht hb hν) scaled n

/-! ## Blocks of one label -/

theorem acceptsBlocks_singletons {labels : List String} (hn : labels.Nodup) (hlabels : ∀ l ∈ labels, l ∈ t.labels) :
    t.AcceptsBlocks (labels.map fun l => [l]) := by
  refine ⟨List.forall_mem_map.mpr fun l _ => List.forall_mem_map.mpr fun m _ => rfl, ?_, ?_⟩
  · rwa [flatten_singletons]
  · rwa [flatten_singletons]

/-- **Blocks of one label are symmetrized over as the labels are.** -/
theorem blockSymmetrized_singletons (ht : t.IsPolynomial) {labels : List String} (hn : labels.Nodup)
    (hlabels : ∀ l ∈ labels, l ∈ t.labels) (scaled : Bool) :
    (t.blockSymmetrized (labels.map fun l => [l]) scaled).Matched SamePolynomial
      (t.symmetrized labels false scaled) := by
  by_cases hempty : labels = []
  · -- Only here the two differ: without blocks the tensor itself is returned.
    subst hempty
    refine ⟨by rw [labels_symmetrized]; exact List.Perm.refl _, (dimension_symmetrized ..).symm, fun ν hν => ?_⟩
    have hν : t.InRange ν := hν
    have hone : normalization scaled ([] : List String).length = 1 := by cases scaled <;> simp [normalization]
    have hsame : ∀ σ, (t.lookup (ν ∘ labelPermutation hn σ)).poly = character false σ • (t.lookup ν).poly := by
      intro σ
      obtain rfl : σ = 1 := Equiv.ext fun i => Fin.elim0 i
      rw [map_one, map_one, one_smul]
      rfl
    have hresult := symmetrized_denotes ht hn hlabels false scaled hν
    rw [hone, orbitSum_of_transforms hn false (F := fun μ => (t.lookup μ).poly) hsame] at hresult
    have hresult : ((t.symmetrized [] false scaled).lookup ν).Denotes (t.lookup ν).poly := by simpa using hresult
    exact Scalar.maps_of_denotes (Scalar.denotes_poly (ht.lookup ν)) hresult
  · have hblocks : labels.map (fun l => [l]) ≠ [] := by simpa using hempty
    rw [blockSymmetrized, if_neg hblocks, List.length_map]
    exact Matched.refl (symmetrized_isPolynomial ht hn hlabels false scaled)

/-! ## Whole blocks permuted -/

/-- Renaming the labels of some blocks to those of the blocks in another order. -/
theorem exists_renamed_blocks (hb : t.AcceptsBlocks (List.ofFn f)) (σ : Perm (Fin n)) :
    ∃ u, t.rename (List.ofFn f).flatten (List.ofFn (f ∘ σ)).flatten = .ok u ∧
      u.labels = t.labels.map (blockMap f (f ∘ σ)) ∧ u.SameComponents t := by
  have hf := hb.areBlocks
  have hnew : (List.ofFn f).flatten.map (blockMap f (f ∘ σ)) = (List.ofFn (f ∘ σ)).flatten :=
    map_exchanged hf.nodup (length_flatten_ofFn fun i => hf.length _ _)
  rw [← hnew]
  exact rename_ok hb.mem (fun l _ => exchanged_of_notMem) (t.nodup_labels.map (hf.blockMap_injective σ))

theorem blockMap_mem_labels (hb : t.AcceptsBlocks (List.ofFn f)) (σ : Perm (Fin n)) {l : String}
    (hl : l ∈ t.labels) : blockMap f (f ∘ σ) l ∈ t.labels :=
  exchanged_mem_labels (fun _ hm => hb.mem _ ((σ.ofFn_comp_perm f).flatten.mem_iff.mp hm)) hl

theorem perm_map_blockMap (hb : t.AcceptsBlocks (List.ofFn f)) (σ : Perm (Fin n)) :
    (t.labels.map (blockMap f (f ∘ σ))).Perm t.labels := by
  have hn := t.nodup_labels.map (hb.areBlocks.blockMap_injective σ)
  have hsubset : t.labels.map (blockMap f (f ∘ σ)) ⊆ t.labels := by
    intro l hl
    obtain ⟨m, hm, rfl⟩ := List.mem_map.mp hl
    exact blockMap_mem_labels hb σ hm
  exact (hn.subperm hsubset).perm_of_length_le (by simp)

/-- **Permuting whole blocks does not change the result**, neither in the list of the blocks nor on the axes. -/
theorem blockSymmetrized_permuted (ht : t.IsPolynomial) (hb : t.AcceptsBlocks (List.ofFn f)) (σ : Perm (Fin n))
    (scaled : Bool) :
    (t.blockSymmetrized (List.ofFn (f ∘ σ)) scaled).Matched SamePolynomial
        (t.blockSymmetrized (List.ofFn f) scaled) ∧
      ∃ r, (t.blockSymmetrized (List.ofFn f) scaled).rename (List.ofFn f).flatten (List.ofFn (f ∘ σ)).flatten =
        .ok r ∧ r.Matched SamePolynomial (t.blockSymmetrized (List.ofFn f) scaled) := by
  have hdenotes := fun {ν} => blockSymmetrized_denotes (ν := ν) ht hb scaled
  constructor
  · refine ⟨by rw [labels_blockSymmetrized, labels_blockSymmetrized], ?_, fun ν hν => ?_⟩
    · rw [dimension_blockSymmetrized, dimension_blockSymmetrized]
    · have hν := inRange_blockSymmetrized.mp hν
      have hother := blockSymmetrized_denotes ht (hb.perm (σ.ofFn_comp_perm f)) scaled hν
      rw [blockSum_comp hb.areBlocks] at hother
      exact Scalar.maps_of_denotes hother (hdenotes hν)
  · have hb' : (t.blockSymmetrized (List.ofFn f) scaled).AcceptsBlocks (List.ofFn f) :=
      ⟨hb.length, hb.nodup, labels_blockSymmetrized.symm ▸ hb.mem⟩
    obtain ⟨r, hr, hlabels, hsame⟩ := exists_renamed_blocks hb' σ
    have hperm := perm_map_blockMap hb' σ
    rw [← hlabels] at hperm
    refine ⟨r, hr, hperm, hsame.dimension, fun ν hν => ?_⟩
    have hrange := inRange_blockSymmetrized.mp ((inRange_relabeled hlabels hsame).mp hν)
    have hν : t.InRange ν := fun l hl =>
      dimension_blockSymmetrized (t := t) ▸ hsame.dimension ▸ hν l (hperm.mem_iff.mpr (labels_blockSymmetrized.symm ▸ hl))
    have hrenamed := hdenotes hrange
    rw [blockSum_blockMap hb.areBlocks, ← lookup_relabeled hlabels hsame] at hrenamed
    exact Scalar.maps_of_denotes hrenamed (hdenotes hν)

/-! ## Two blocks exchanged -/

theorem withLabels_eq_ok {u : Tensor} (hlength : u.labels.length = t.labels.length) (h : u.SameComponents t) :
    t.withLabels u.labels = .ok u := by
  obtain ⟨u', hu', hlabels, hsame⟩ := relabel_ok hlength u.nodup_labels
  rw [withLabels, dif_pos hlength, hu', eq_of_sameComponents hlabels
    ⟨hsame.dimension.trans h.dimension.symm, hsame.components.trans h.components.symm⟩]

/-- **Two blocks are symmetrized over by adding the tensor with the blocks exchanged.** -/
theorem blockSymmetrize_pair {b₁ b₂ : List String} (hb : t.AcceptsBlocks [b₁, b₂]) :
    ∃ u s, t.rename (b₁ ++ b₂) (b₂ ++ b₁) = .ok u ∧ t.add u = .ok s ∧ ∀ scaled,
      t.blockSymmetrize [b₁, b₂] scaled = .ok (if scaled then s.scale (.rational (1 / 2)) else s) ∧
      t.exchangeSymmetrize (t.labels.map (exchanged (b₁ ++ b₂) (b₂ ++ b₁))) scaled =
        .ok (if scaled then s.scale (.rational (1 / 2)) else s) := by
  let f : Fin 2 → List String := ![b₁, b₂]
  let σ : Perm (Fin 2) := Equiv.swap 0 1
  have hblocks : [b₁, b₂] = List.ofFn f := by simp [f]
  have hflatten : (List.ofFn f).flatten = b₁ ++ b₂ := by simp [f]
  have hflatten' : (List.ofFn (f ∘ σ)).flatten = b₂ ++ b₁ := by simp [f, σ]
  have hmap : blockMap f (f ∘ σ) = exchanged (b₁ ++ b₂) (b₂ ++ b₁) := by rw [blockMap, hflatten, hflatten']
  obtain ⟨u, hu, hlabels, hsame⟩ := exists_renamed_blocks (hblocks ▸ hb) σ
  have hperm := perm_map_blockMap (hblocks ▸ hb) σ
  rw [hflatten, hflatten'] at hu
  have hf := (hblocks ▸ hb : t.AcceptsBlocks (List.ofFn f)).areBlocks
  have hback : blockMap (f ∘ σ) f = blockMap f (f ∘ σ) := by
    have htwice : (f ∘ σ) ∘ σ = f := funext fun i => congrArg f (Equiv.swap_apply_self 0 1 i)
    rw [← blockMap_comp (g := f ∘ σ) hf.nodup (fun i => hf.length _ _) σ, htwice]
  have hadd := add_ok (u := t) (v := u) (hlabels ▸ hperm.symm) hsame.dimension.symm
  have hsum : t.permutedSum [b₁, b₂] false =
      tabulate t.labels t.nodup_labels t.dimension fun ν => t.lookup ν + u.lookup ν := by
    refine congrArg (tabulate t.labels t.nodup_labels t.dimension) (funext fun ν => ?_)
    show addUp [t.lookup (ν ∘ blockMap f f), t.lookup (ν ∘ blockMap (f ∘ σ) f)] = t.lookup ν + u.lookup ν
    rw [blockMap_self hf.nodup, hback, lookup_relabeled hlabels hsame]
    rfl
  have hwith : t.withLabels (t.labels.map (exchanged (b₁ ++ b₂) (b₂ ++ b₁))) = .ok u := by
    rw [← hmap, ← hlabels]
    exact withLabels_eq_ok (hlabels ▸ List.length_map _) hsame
  refine ⟨u, _, hu, hadd, fun scaled => ⟨?_, ?_⟩⟩
  · rw [blockSymmetrize_ok hb, blockSymmetrized, if_neg (by simp), hsum]
    rfl
  · rw [exchangeSymmetrize, hwith]
    show (do let total ← t.add u; pure (if scaled then total.scale (.rational (1 / 2)) else total)) = _
    rw [hadd]
    rfl

/-! ## The symmetrizers -/

/-- **The symmetrizers agree where they overlap.** For a tensor of polynomials:

* distinct labels are symmetrized over as blocks of one label, summed or averaged, and no label at all too;
* two blocks of one length are symmetrized over as the tensor is with its labels exchanged along the blocks, and both
  results are the tensor plus its renaming along the blocks, halved if they are averages;
* blocks of one length, of any number, have one result, whatever the order of the blocks in the list and on the axes.

Symmetrization over blocks has a result for no other blocks. -/
theorem symmetrizers_agree (ht : t.IsPolynomial) (scaled : Bool) :
    (∀ labels : List String, labels.Nodup → (∀ l ∈ labels, l ∈ t.labels) →
      ∃ r r', t.blockSymmetrize (labels.map fun l => [l]) scaled = .ok r ∧ t.symmetrize labels scaled = .ok r' ∧
        r.equals r' = true) ∧
    (∀ b₁ b₂ : List String, t.AcceptsBlocks [b₁, b₂] →
      ∃ u s r, t.rename (b₁ ++ b₂) (b₂ ++ b₁) = .ok u ∧ t.add u = .ok s ∧
        r = (if scaled then s.scale (.rational (1 / 2)) else s) ∧ t.blockSymmetrize [b₁, b₂] scaled = .ok r ∧
        t.exchangeSymmetrize (t.labels.map (exchanged (b₁ ++ b₂) (b₂ ++ b₁))) scaled = .ok r) ∧
    (∀ blocks : List (List String), t.AcceptsBlocks blocks →
      ∃ r, t.blockSymmetrize blocks scaled = .ok r ∧ ∀ blocks' : List (List String), blocks'.Perm blocks →
        (∃ r', t.blockSymmetrize blocks' scaled = .ok r' ∧ r'.equals r = true) ∧
        ∃ r', r.rename blocks.flatten blocks'.flatten = .ok r' ∧ r'.equals r = true) ∧
    ∀ blocks r, t.blockSymmetrize blocks scaled = .ok r → t.AcceptsBlocks blocks := by
  refine ⟨fun labels hn hlabels => ?_, fun b₁ b₂ hb => ?_, fun blocks hb => ?_, fun _ _ => acceptsBlocks_of_ok⟩
  · exact ⟨_, _, blockSymmetrize_ok (acceptsBlocks_singletons hn hlabels) scaled, symmetrize_ok hlabels hn scaled,
      (blockSymmetrized_singletons ht hn hlabels scaled).equals⟩
  · obtain ⟨u, s, hu, hs, hall⟩ := blockSymmetrize_pair hb
    exact ⟨u, s, _, hu, hs, rfl, hall scaled⟩
  · refine ⟨_, blockSymmetrize_ok hb scaled, fun blocks' hperm => ?_⟩
    obtain ⟨n, f, rfl⟩ : ∃ n, ∃ f : Fin n → List String, blocks = List.ofFn f := ⟨_, _, (List.ofFn_get blocks).symm⟩
    obtain ⟨σ, rfl⟩ := exists_comp_perm hperm
    obtain ⟨hlist, r, hr, haxes⟩ := blockSymmetrized_permuted ht hb σ scaled
    exact ⟨⟨_, blockSymmetrize_ok (hb.perm hperm) scaled, hlist.equals⟩, r, hr, haxes.equals⟩

/-- Blocks that are scattered over the axes and interleaved: two of two labels, three of one label, and a list of
blocks with the same labels at different places. -/
theorem symmetrizers_agree_interleaved :
    let T := symbolic ["i", "j", "k", "l", "m"] (by decide) 2 "T"
    (∃ r r', T.blockSymmetrize [["m"], ["i"], ["k"]] true = .ok r ∧ T.symmetrize ["m", "i", "k"] true = .ok r' ∧
      r.equals r' = true) ∧
    (∃ u s, T.rename ["k", "i", "j", "m"] ["j", "m", "k", "i"] = .ok u ∧ T.add u = .ok s ∧
      T.blockSymmetrize [["k", "i"], ["j", "m"]] false = .ok s ∧
      T.exchangeSymmetrize ["m", "k", "j", "l", "i"] false = .ok s) ∧
    (∃ r r', T.blockSymmetrize [["k", "i"], ["j", "m"]] true = .ok r ∧
      T.blockSymmetrize [["j", "m"], ["k", "i"]] true = .ok r' ∧ r'.equals r = true) ∧
    ∃ error, T.blockSymmetrize [["k", "i"], ["i", "m"]] true = .error error := by
  intro T
  have hT : T.IsPolynomial := symbolic_isPolynomial _ _ _ _
  obtain ⟨hsingle, -, hany, hrefused⟩ := symmetrizers_agree hT true
  have hblocks : T.AcceptsBlocks [["k", "i"], ["j", "m"]] := ⟨by decide, by decide, by decide⟩
  obtain ⟨r, r', hr, hr', hequals⟩ := hsingle ["m", "i", "k"] (by decide) (by decide)
  obtain ⟨u, s, q, hu, hs, hq, hblock, hexchange⟩ := (symmetrizers_agree hT false).2.1 _ _ hblocks
  obtain rfl : s = q := hq.symm
  obtain ⟨p, hp, hperm⟩ := hany _ hblocks
  obtain ⟨⟨p', hp', hequal⟩, -⟩ := hperm [["j", "m"], ["k", "i"]] (List.Perm.swap _ _ _)
  refine ⟨⟨r, r', hr, hr', hequals⟩, ⟨u, s, hu, hs, hblock, hexchange⟩, ⟨p, p', hp, hp', hequal⟩, ?_⟩
  cases hresult : T.blockSymmetrize [["k", "i"], ["i", "m"]] true with
  | error error => exact ⟨error, rfl⟩
  | ok q => exact absurd (hrefused _ q hresult).nodup (by decide)

end Tensor

end TensorEquations
