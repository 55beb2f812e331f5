import TensorEquations.Proofs.Tensor.Lookup
import TensorEquations.Proofs.Tensor.Summation

/-!
# The product of tensors

The product is contracted one pair of axes at a time, and every contraction moves the axes behind it.

* `dropPair_eq`, `sumDiagonal_map` — one contraction: the two places of a label, told by what stands in front of,
  between and behind them.
* `contractRepeated_append` — **all contractions**: the components at the values of the free labels are the sums
  over the values of the shared ones.
* `contraction`, `product_eq` — **what the product is**, and what it is refused for.
* `Contracts`, `exists_product` — the product of two tensors of one dimension.
* `product_sums_shared` — **the product of two tensors sums over the values of the shared labels.**
-/

namespace TensorEquations

open Tensor

/-! ## One contraction -/

section Pair

variable {l : String} {front middle back : List String}

theorem idxOf_middle (hfront : l ∉ front) : (front ++ l :: back).idxOf l = front.length := by
  rw [List.idxOf_append_of_notMem hfront]
  simp

theorem secondPlace_eq (hfront : l ∉ front) (hmiddle : l ∉ middle) :
    secondPlace (front ++ l :: (middle ++ l :: back)) l = front.length + 1 + middle.length := by
  have hrest : (front ++ l :: (middle ++ l :: back)).drop (front.length + 1) = middle ++ l :: back := by
    rw [← List.singleton_append, ← List.append_assoc, List.drop_left' (by simp)]
  unfold secondPlace
  rw [idxOf_middle hfront, hrest, idxOf_middle hmiddle]

/-- Labels do not see the value of another one. -/
theorem map_update_of_notMem {labels : List String} (hl : l ∉ labels) {ν : Assignment} {i : ℕ} :
    labels.map (Function.update ν l i) = labels.map ν := by
  refine List.map_congr_left fun m hm => Function.update_of_ne ?_ i ν
  rintro rfl
  exact hl hm

theorem eraseIdx_middle {α : Type} (xs : List α) (x : α) (ys : List α) :
    (xs ++ x :: ys).eraseIdx xs.length = xs ++ ys := by
  rw [List.eraseIdx_append_of_length_le le_rfl]
  simp

theorem insertIdx_middle {α : Type} (xs : List α) (x : α) (ys : List α) :
    (xs ++ ys).insertIdx xs.length x = xs ++ x :: ys := by
  induction xs with
  | nil => simp
  | cons y xs ih => simp [List.insertIdx_succ_cons, ih]

/-- The labels without the two places of one of them. -/
theorem dropPair_eq (hfront : l ∉ front) (hmiddle : l ∉ middle) :
    dropPair (front ++ l :: (middle ++ l :: back)) l = front ++ (middle ++ back) := by
  have hsecond : (front ++ l :: (middle ++ l :: back)).eraseIdx (front.length + 1 + middle.length) =
      front ++ l :: (middle ++ back) := by
    have hsplit : front ++ l :: (middle ++ l :: back) = (front ++ l :: middle) ++ l :: back := by simp
    have hlength : front.length + 1 + middle.length = (front ++ l :: middle).length := by
      rw [List.length_append, List.length_cons]
      omega
    rw [hsplit, hlength, eraseIdx_middle]
    simp
  unfold dropPair
  rw [secondPlace_eq hfront hmiddle, hsecond, idxOf_middle hfront, eraseIdx_middle]

/-- The sum over a diagonal at the values of the labels that are left: the values of the label of the two axes
are summed over. -/
theorem sumDiagonal_map (hfront : l ∉ front) (hmiddle : l ∉ middle) (hback : l ∉ back) (dimension : ℕ)
    (f : List ℕ → Scalar) (ν : Assignment) :
    sumDiagonal dimension ((front ++ l :: (middle ++ l :: back)).idxOf l)
        (secondPlace (front ++ l :: (middle ++ l :: back)) l) f ((front ++ (middle ++ back)).map ν) =
      addUp ((List.range dimension).map fun i =>
        f ((front ++ l :: (middle ++ l :: back)).map (Function.update ν l i))) := by
  unfold sumDiagonal
  rw [idxOf_middle hfront, secondPlace_eq hfront hmiddle]
  refine congrArg addUp (List.map_congr_left fun i _ => congrArg f ?_)
  have hinsert : ((front ++ (middle ++ back)).map ν).insertIdx front.length i =
      (front.map ν ++ i :: middle.map ν) ++ back.map ν := by
    have := insertIdx_middle (front.map ν) i ((middle ++ back).map ν)
    rw [List.length_map, ← List.map_append] at this
    simpa using this
  have hlength : front.length + 1 + middle.length = (front.map ν ++ i :: middle.map ν).length := by
    rw [List.length_append, List.length_cons, List.length_map, List.length_map]
    omega
  rw [hinsert, hlength, insertIdx_middle, List.map_append, List.map_cons, List.map_append, List.map_cons,
    Function.update_self, map_update_of_notMem hfront, map_update_of_notMem hmiddle, map_update_of_notMem hback]
  simp

end Pair

/-! ## All contractions -/

/-- The labels that both factors carry, in the order of the left one. -/
def sharedLabels (A B : List String) : List String := A.filter (· ∈ B)

/-- The labels that only one factor carries, those of the left one first. -/
def freeLabels (A B : List String) : List String := A.filter (· ∉ B) ++ B.filter (· ∉ A)

variable {A B A' B' : List String} {dimension : ℕ}

theorem mem_sharedLabels {l : String} : l ∈ sharedLabels A B ↔ l ∈ A ∧ l ∈ B := by
  simp [sharedLabels]

theorem mem_freeLabels {l : String} : l ∈ freeLabels A B ↔ l ∈ A ∧ l ∉ B ∨ l ∈ B ∧ l ∉ A := by
  simp [freeLabels]

theorem sharedLabels_perm (hA : A.Perm A') (hB : B.Perm B') : (sharedLabels A B).Perm (sharedLabels A' B') := by
  have hmem : A.filter (· ∈ B) = A.filter (· ∈ B') := List.filter_congr fun l _ => decide_eq_decide.mpr hB.mem_iff
  unfold sharedLabels
  rw [hmem]
  exact hA.filter _

theorem filter_notMem_perm (hA : A.Perm A') (hB : B.Perm B') : (A.filter (· ∉ B)).Perm (A'.filter (· ∉ B')) := by
  have hmem : A.filter (· ∉ B) = A.filter (· ∉ B') :=
    List.filter_congr fun l _ => decide_eq_decide.mpr (not_congr hB.mem_iff)
  rw [hmem]
  exact hA.filter _

theorem freeLabels_perm (hA : A.Perm A') (hB : B.Perm B') : (freeLabels A B).Perm (freeLabels A' B') :=
  (filter_notMem_perm hA hB).append (filter_notMem_perm hB hA)

/-- The first shared label, between what stands around it in both factors. -/
theorem sharedLabels_eq_cons {l : String} {ls : List String} (h : sharedLabels A B = l :: ls) :
    ∃ A₁ A₂ B₁ B₂, A = A₁ ++ l :: A₂ ∧ B = B₁ ++ l :: B₂ ∧ (∀ m ∈ A₁, m ∉ B₁ ++ l :: B₂) ∧
      A₂.filter (· ∈ B₁ ++ l :: B₂) = ls := by
  obtain ⟨A₁, A₂, rfl, hfirst, hl, hls⟩ := List.filter_eq_cons_iff.mp h
  obtain ⟨B₁, B₂, rfl⟩ := List.append_of_mem (of_decide_eq_true hl)
  refine ⟨A₁, A₂, B₁, B₂, rfl, rfl, ?_, hls⟩
  intro m hm
  simpa using hfirst m hm

theorem count_append_of_nodup (hA : A.Nodup) (hB : B.Nodup) (l : String) :
    (A ++ B).count l = (if l ∈ A then 1 else 0) + if l ∈ B then 1 else 0 := by
  rw [List.count_append, hA.count, hB.count]

theorem repeated?_of_disjoint (hA : A.Nodup) (hB : B.Nodup) (h : sharedLabels A B = []) :
    repeated? (A ++ B) = none := by
  unfold repeated?
  rw [List.find?_eq_none]
  intro l _
  have hl : l ∈ A → l ∉ B := fun hl => by simpa using List.filter_eq_nil_iff.mp h l hl
  rw [count_append_of_nodup hA hB]
  by_cases hlA : l ∈ A
  · simp [hlA, hl hlA]
  · by_cases hlB : l ∈ B <;> simp [hlA, hlB]

section Step

variable {l : String} {A₁ A₂ B₁ B₂ : List String}

/-- The first shared label is the one that is contracted. -/
theorem repeated?_of_shared (hA : (A₁ ++ l :: A₂).Nodup) (hB : (B₁ ++ l :: B₂).Nodup)
    (hfirst : ∀ m ∈ A₁, m ∉ B₁ ++ l :: B₂) :
    repeated? ((A₁ ++ l :: A₂) ++ (B₁ ++ l :: B₂)) = some l := by
  unfold repeated?
  rw [List.find?_eq_some_iff_append]
  refine ⟨?_, A₁, A₂ ++ (B₁ ++ l :: B₂), by simp, ?_⟩
  · rw [count_append_of_nodup hA hB]
    simp
  · intro m hm
    rw [count_append_of_nodup hA hB, if_neg (hfirst m hm)]
    split <;> simp

theorem mem_drop_iff {m : String} (hm : m ≠ l) : m ∈ B₁ ++ B₂ ↔ m ∈ B₁ ++ l :: B₂ := by
  simp [hm]

/-- The labels shared without the first shared one. -/
theorem sharedLabels_drop (hA : l ∉ A₁ ++ A₂) (hfirst : ∀ m ∈ A₁, m ∉ B₁ ++ l :: B₂) :
    sharedLabels (A₁ ++ A₂) (B₁ ++ B₂) = A₂.filter (· ∈ B₁ ++ l :: B₂) := by
  have hne : ∀ m ∈ A₁ ++ A₂, m ≠ l := fun m hm he => hA (he ▸ hm)
  have hall : sharedLabels (A₁ ++ A₂) (B₁ ++ B₂) = (A₁ ++ A₂).filter (· ∈ B₁ ++ l :: B₂) :=
    List.filter_congr fun m hm => decide_eq_decide.mpr (mem_drop_iff (hne m hm))
  have hnone : A₁.filter (· ∈ B₁ ++ l :: B₂) = [] := by
    rw [List.filter_eq_nil_iff]
    intro m hm
    simpa using hfirst m hm
  rw [hall, List.filter_append, hnone, List.nil_append]

theorem filter_free_drop (hA : l ∉ A₁ ++ A₂) :
    (A₁ ++ A₂).filter (· ∉ B₁ ++ B₂) = (A₁ ++ l :: A₂).filter (· ∉ B₁ ++ l :: B₂) := by
  have hne : ∀ m ∈ A₁ ++ A₂, m ≠ l := fun m hm he => hA (he ▸ hm)
  have hall : (A₁ ++ A₂).filter (· ∉ B₁ ++ B₂) = (A₁ ++ A₂).filter (· ∉ B₁ ++ l :: B₂) :=
    List.filter_congr fun m hm => decide_eq_decide.mpr (not_congr (mem_drop_iff (hne m hm)))
  have hl : decide (l ∉ B₁ ++ l :: B₂) = false := by simp
  rw [hall, List.filter_append, List.filter_append, List.filter_cons, hl]
  rfl

/-- The free labels are not touched by a contraction. -/
theorem freeLabels_drop (hA : l ∉ A₁ ++ A₂) (hB : l ∉ B₁ ++ B₂) :
    freeLabels (A₁ ++ A₂) (B₁ ++ B₂) = freeLabels (A₁ ++ l :: A₂) (B₁ ++ l :: B₂) := by
  unfold freeLabels
  rw [filter_free_drop hA, filter_free_drop hB]

end Step

theorem freeLabels_of_disjoint (h : sharedLabels A B = []) : freeLabels A B = A ++ B := by
  have hA : ∀ l ∈ A, l ∉ B := fun l hl => by simpa using List.filter_eq_nil_iff.mp h l hl
  have hB : ∀ l ∈ B, l ∉ A := fun l hl hlA => hA l hlA hl
  unfold freeLabels
  rw [List.filter_eq_self.mpr (by simpa using hA), List.filter_eq_self.mpr (by simpa using hB)]

theorem nodup_freeLabels (hA : A.Nodup) (hB : B.Nodup) : (freeLabels A B).Nodup := by
  refine List.nodup_append.mpr ⟨hA.filter _, hB.filter _, ?_⟩
  rintro l hl m hm rfl
  simp only [List.mem_filter, decide_eq_true_eq] at hl hm
  exact hl.2 hm.1

/-- **All contractions**: the labels that are left are the free ones, and the components at their values are sums
over the values of the shared ones. -/
theorem contractRepeated_append (f : List ℕ → Scalar) (hd : sharedLabels A B ≠ [] → dimension ≠ 0)
    (hA : A.Nodup) (hB : B.Nodup) :
    ∃ g, contractRepeated dimension (A ++ B) f = .ok (freeLabels A B, g) ∧
      ∀ ν, g ((freeLabels A B).map ν) =
        sumOver dimension (sharedLabels A B) (fun μ => f ((A ++ B).map μ)) ν := by
  -- Along the shared labels: each round takes the first one out of both factors.
  induction hs : sharedLabels A B generalizing A B f with
  | nil =>
    refine ⟨f, ?_, ?_⟩
    · rw [contractRepeated_of_none (repeated?_of_disjoint hA hB hs), freeLabels_of_disjoint hs]
    · intro ν
      rw [freeLabels_of_disjoint hs]
      rfl
  | cons l ls ih =>
    obtain ⟨A₁, A₂, B₁, B₂, rfl, rfl, hfirst, hls⟩ := sharedLabels_eq_cons hs
    obtain ⟨hlA, hA'⟩ := List.nodup_cons.mp (List.nodup_middle.mp hA)
    obtain ⟨hlB, hB'⟩ := List.nodup_cons.mp (List.nodup_middle.mp hB)
    have hlA₁ : l ∉ A₁ := fun h => hlA (List.mem_append_left _ h)
    have hmiddle : l ∉ A₂ ++ B₁ := by
      simp only [List.mem_append, not_or] at hlA hlB ⊢
      exact ⟨hlA.2, hlB.1⟩
    have hlB₂ : l ∉ B₂ := fun h => hlB (List.mem_append_right _ h)
    have hsplit : (A₁ ++ l :: A₂) ++ (B₁ ++ l :: B₂) = A₁ ++ l :: ((A₂ ++ B₁) ++ l :: B₂) := by simp
    have hjoin : A₁ ++ ((A₂ ++ B₁) ++ B₂) = (A₁ ++ A₂) ++ (B₁ ++ B₂) := by simp
    have hd' : dimension ≠ 0 := hd (hs ▸ List.cons_ne_nil l ls)
    obtain ⟨g, hg, hvalue⟩ := ih (sumDiagonal dimension (((A₁ ++ l :: A₂) ++ (B₁ ++ l :: B₂)).idxOf l)
        (secondPlace ((A₁ ++ l :: A₂) ++ (B₁ ++ l :: B₂)) l) f)
      (fun _ => hd') hA' hB' ((sharedLabels_drop hlA hfirst).trans hls)
    have hdrop : dropPair ((A₁ ++ l :: A₂) ++ (B₁ ++ l :: B₂)) l = (A₁ ++ A₂) ++ (B₁ ++ B₂) := by
      rw [hsplit, dropPair_eq hlA₁ hmiddle, hjoin]
    refine ⟨g, ?_, ?_⟩
    · rw [contractRepeated_of_some (repeated?_of_shared hA hB hfirst), if_neg hd', hdrop, hg,
        freeLabels_drop hlA hlB]
    · intro ν
      rw [← freeLabels_drop hlA hlB, hvalue ν, sumOver]
      congr 1
      funext μ
      have hsum := sumDiagonal_map hlA₁ hmiddle hlB₂ dimension f μ
      rw [hjoin, ← hsplit] at hsum
      exact hsum

/-- Without values for the axes there is nothing to start a sum with. -/
theorem contractRepeated_empty (f : List ℕ → Scalar) (hs : sharedLabels A B ≠ []) (hA : A.Nodup) (hB : B.Nodup) :
    contractRepeated 0 (A ++ B) f = .error .emptyContraction := by
  obtain ⟨l, ls, hcons⟩ := List.exists_cons_of_ne_nil hs
  obtain ⟨A₁, A₂, B₁, B₂, rfl, rfl, hfirst, -⟩ := sharedLabels_eq_cons hcons
  rw [contractRepeated_of_some (repeated?_of_shared hA hB hfirst), if_pos rfl]

/-! ## The product -/

namespace Tensor

/-- All axes of a tensor, if it has any, have a given dimension. -/
def HasDimension (dimension : ℕ) (t : Tensor) : Prop := t.labels ≠ [] → t.dimension = dimension

variable {a b c : Tensor}

/-- No label stands at more than two places among those of two factors. -/
theorem overused?_eq_none (a b : Tensor) : overused? (a.labels ++ b.labels) = none := by
  unfold overused?
  rw [List.find?_eq_none]
  intro l _
  rw [count_append_of_nodup a.nodup_labels b.nodup_labels]
  split <;> split <;> simp

/-- The outer product at the values of the labels of both factors. -/
theorem outer_map (a b : Tensor) (ν : Assignment) :
    a.outer b ((a.labels ++ b.labels).map ν) = a.lookup ν * b.lookup ν := by
  unfold outer rank lookup
  rw [List.map_append, List.take_left' (List.length_map _), List.drop_left' (List.length_map _)]

theorem build_of_nodup {labels : List String} (nodup : labels.Nodup) (n : ℕ) (f : List ℕ → Scalar) :
    build labels n f = .ok (ofFunction labels nodup n f) :=
  build_eq_ok_iff.mpr ⟨nodup, fun _ => Int.natCast_nonneg n, rfl⟩

/-- What the product of two tensors of one dimension is: its labels, its dimension, and its component at any values
of the labels in range. -/
structure Contracts (dimension : ℕ) (a b c : Tensor) : Prop where
  labels : c.labels = freeLabels a.labels b.labels
  hasDimension : c.HasDimension dimension
  lookup : ∀ ν, Below dimension ν → c.lookup ν =
    sumOver dimension (sharedLabels a.labels b.labels) (fun μ => a.lookup μ * b.lookup μ) ν

/-- The number of values of each axis of a product. -/
def axisRange (a b : Tensor) : ℕ := if a.labels = [] then b.dimension else a.dimension

/-- The tensor over the free labels of two others whose components are sums over the values of the shared ones. -/
def contraction (a b : Tensor) : Tensor :=
  tabulate (freeLabels a.labels b.labels) (nodup_freeLabels a.nodup_labels b.nodup_labels) (axisRange a b)
    (sumOver (axisRange a b) (sharedLabels a.labels b.labels) fun ν => a.lookup ν * b.lookup ν)

/-- **What the product of two tensors is.** Axes of different dimensions and contractions of axes without values are
refused. -/
theorem product_eq (a b : Tensor) : a.product b =
    if a.labels ≠ [] ∧ b.labels ≠ [] ∧ a.dimension ≠ b.dimension then
      .error (.shape (.dimensionMismatch a.dimension b.dimension))
    else if sharedLabels a.labels b.labels ≠ [] ∧ axisRange a b = 0 then .error .emptyContraction
    else .ok (contraction a b) := by
  have hrange : (if a.labels = [] then b.dimension else a.dimension) = axisRange a b := rfl
  have hnodup := nodup_freeLabels a.nodup_labels b.nodup_labels
  by_cases hne : a.labels ≠ [] ∧ b.labels ≠ [] ∧ a.dimension ≠ b.dimension
  · have hcheck : a.checkDimensions b = .error (.dimensionMismatch a.dimension b.dimension) := if_pos hne
    rw [if_pos hne, product, hcheck]
    rfl
  have hcheck : a.checkDimensions b = .ok () := if_neg hne
  rw [if_neg hne, product]
  simp only [hcheck, overused?_eq_none, hrange]
  by_cases hs : sharedLabels a.labels b.labels ≠ [] ∧ axisRange a b = 0
  · rw [if_pos hs, hs.2, contractRepeated_empty (a.outer b) hs.1 a.nodup_labels b.nodup_labels]
    rfl
  · have hpositive : sharedLabels a.labels b.labels ≠ [] → axisRange a b ≠ 0 := fun hshared hzero => hs ⟨hshared, hzero⟩
    obtain ⟨g, hg, hvalue⟩ := contractRepeated_append (a.outer b) hpositive a.nodup_labels b.nodup_labels
    have hbuild : build (freeLabels a.labels b.labels) (axisRange a b) g = .ok (contraction a b) := by
      rw [build_of_nodup hnodup]
      refine congrArg _ (ofFunction_congr hnodup fun index hlength => ?_)
      have hindex := hvalue (Assignment.ofIndex (freeLabels a.labels b.labels) index)
      rw [map_ofIndex hnodup hlength] at hindex
      simpa only [outer_map] using hindex
    rw [if_neg hs, hg]
    exact hbuild

theorem dependsOn_mul (a b : Tensor) :
    DependsOn (fun ν => a.lookup ν * b.lookup ν) {l | l ∈ a.labels ∨ l ∈ b.labels} := by
  intro ν μ h
  have ha : a.lookup ν = a.lookup μ := a.dependsOn_lookup fun l hl => h l (.inl hl)
  have hb : b.lookup ν = b.lookup μ := b.dependsOn_lookup fun l hl => h l (.inr hl)
  simp only [ha, hb]

/-- Only the values of the free labels matter. -/
theorem dependsOn_contraction (a b : Tensor) : DependsOn (sumOver (axisRange a b) (sharedLabels a.labels b.labels)
    fun ν => a.lookup ν * b.lookup ν) {l | l ∈ freeLabels a.labels b.labels} := by
  refine (dependsOn_sumOver (dependsOn_mul a b)).mono fun l hl => mem_freeLabels.mpr ?_
  have hfactor : l ∈ a.labels ∨ l ∈ b.labels := hl.1
  have hshared : ¬ (l ∈ a.labels ∧ l ∈ b.labels) := mt mem_sharedLabels.mpr hl.2
  tauto

/-- A product at values of the free labels. -/
theorem lookup_contraction {ν : Assignment} (hν : (contraction a b).InRange ν) : (contraction a b).lookup ν =
    sumOver (axisRange a b) (sharedLabels a.labels b.labels) (fun μ => a.lookup μ * b.lookup μ) ν :=
  lookup_tabulate _ (dependsOn_contraction a b) hν

/-- Two tensors of one dimension have a product. -/
theorem exists_product (hd : 1 ≤ dimension) (ha : a.HasDimension dimension) (hb : b.HasDimension dimension) :
    ∃ c, a.product b = .ok c ∧ Contracts dimension a b c := by
  have hright : b.labels ≠ [] → axisRange a b = dimension := fun h => by
    by_cases hla : a.labels = []
    · rw [axisRange, if_pos hla, hb h]
    · rw [axisRange, if_neg hla, ha hla]
  have hleft : a.labels ≠ [] → axisRange a b = dimension := fun h => by rw [axisRange, if_neg h, ha h]
  have hrange : ∀ l, l ∈ a.labels ∨ l ∈ b.labels → axisRange a b = dimension := fun l hl =>
    hl.elim (fun h => hleft (List.ne_nil_of_mem h)) fun h => hright (List.ne_nil_of_mem h)
  have hshared : sharedLabels a.labels b.labels ≠ [] → axisRange a b = dimension := fun h => by
    obtain ⟨l, hl⟩ := List.exists_mem_of_ne_nil _ h
    exact hrange l (.inl (mem_sharedLabels.mp hl).1)
  have hfree : ∀ l ∈ freeLabels a.labels b.labels, axisRange a b = dimension := fun l hl =>
    hrange l ((mem_freeLabels.mp hl).imp And.left And.left)
  have hmatch : ¬ (a.labels ≠ [] ∧ b.labels ≠ [] ∧ a.dimension ≠ b.dimension) :=
    fun ⟨hla, hlb, hne⟩ => hne ((ha hla).trans (hb hlb).symm)
  have hpositive : ¬ (sharedLabels a.labels b.labels ≠ [] ∧ axisRange a b = 0) := by
    rintro ⟨hs, hzero⟩
    have := hshared hs
    omega
  refine ⟨contraction a b, by rw [product_eq, if_neg hmatch, if_neg hpositive], rfl, fun h => ?_, fun ν hν => ?_⟩
  · obtain ⟨l, hl⟩ := List.exists_mem_of_ne_nil _ h
    exact (if_neg h).trans (hfree l hl)
  · have hin : (contraction a b).InRange ν := fun l hl => by
      have hrange : (contraction a b).dimension = dimension := (if_neg (List.ne_nil_of_mem hl)).trans (hfree l hl)
      exact hrange ▸ hν l
    rw [lookup_contraction hin]
    by_cases h : sharedLabels a.labels b.labels = []
    · rw [h]
      rfl
    · rw [hshared h]

theorem product_of_dimension_ne (ha : a.labels ≠ []) (hb : b.labels ≠ []) (h : a.dimension ≠ b.dimension) :
    a.product b = .error (.shape (.dimensionMismatch a.dimension b.dimension)) := by
  rw [product_eq, if_pos ⟨ha, hb, h⟩]

/-- What a product can fail for: axes of different dimensions, or a contraction of axes without values. -/
theorem product_error {error : TensorError} (h : a.product b = .error error) :
    error = .shape (.dimensionMismatch a.dimension b.dimension) ∨ error = .emptyContraction := by
  rw [product_eq] at h
  split at h
  · exact .inl (Except.error.inj h).symm
  · split at h
    · exact .inr (Except.error.inj h).symm
    · cases h

/-- Every multi-index of a tensor gives its labels values in range. -/
theorem HasDimension.below (h : a.HasDimension dimension) (hd : 1 ≤ dimension) {index : List ℕ}
    (hindex : index ∈ a.indices) : Below dimension (.ofIndex a.labels index) := by
  obtain ⟨hlength, hall⟩ := mem_multiIndices.mp hindex
  refine Below.ofIndex hd (fun i hi => ?_) a.labels
  have hne : a.labels ≠ [] := by
    rintro he
    rw [rank, he, List.length_nil, List.length_eq_zero_iff] at hlength
    rw [hlength] at hi
    cases hi
  exact h hne ▸ hall i hi

theorem lookup_mul_denotes (ha : a.IsPolynomial) (hb : b.IsPolynomial) (ν : Assignment) :
    (a.lookup ν * b.lookup ν).Denotes ((a.lookup ν).poly * (b.lookup ν).poly) :=
  (Scalar.denotes_poly (ha.lookup ν)).mul (Scalar.denotes_poly (hb.lookup ν))

/-- A sum of products of polynomials. -/
theorem sumOver_mul_denotes (ha : a.IsPolynomial) (hb : b.IsPolynomial) (n : ℕ) (labels : List String)
    (ν : Assignment) : (sumOver n labels (fun μ => a.lookup μ * b.lookup μ) ν).Denotes
      (polySum n labels (fun μ => (a.lookup μ).poly * (b.lookup μ).poly) ν) := by
  have hmul := lookup_mul_denotes ha hb
  have hsum := sumOver_denotes n labels (fun μ => (hmul μ).isPolynomial) ν
  rwa [funext fun μ => (hmul μ).poly_eq] at hsum

/-- The components of a product of tensors of polynomials, as polynomials. -/
theorem Contracts.denotes (h : Contracts dimension a b c) (ha : a.IsPolynomial) (hb : b.IsPolynomial)
    {ν : Assignment} (hν : Below dimension ν) :
    (c.lookup ν).Denotes (polySum dimension (sharedLabels a.labels b.labels)
      (fun μ => (a.lookup μ).poly * (b.lookup μ).poly) ν) := by
  rw [h.lookup ν hν]
  exact sumOver_mul_denotes ha hb dimension _ ν

/-- **The product of tensors sums over the values of the shared labels.** Its labels are those of the left factor and
then those of the right one, without the shared ones, and each component is the sum of the products of the
components that the values of all labels select, one shared label after the other. For polynomials it expands to
the same as one sum over all values of the shared labels. Two tensors with axes of different dimensions have no
product. -/
theorem product_sums_shared (a b : Tensor) :
    (∀ dimension, 1 ≤ dimension → a.HasDimension dimension → b.HasDimension dimension →
      ∃ c, a.product b = .ok c ∧ c.labels = freeLabels a.labels b.labels ∧ c.HasDimension dimension ∧
        (∀ index ∈ c.indices, c.component index =
          sumOver dimension (sharedLabels a.labels b.labels) (fun ν => a.lookup ν * b.lookup ν)
            (.ofIndex c.labels index)) ∧
        (a.IsPolynomial → b.IsPolynomial → ∀ index ∈ c.indices, (c.component index).expand =
          (Scalar.sum ((multiIndices dimension (sharedLabels a.labels b.labels).length).map fun values =>
            let ν := (Assignment.ofIndex c.labels index).update (sharedLabels a.labels b.labels) values
            a.lookup ν * b.lookup ν)).expand)) ∧
      (a.labels ≠ [] → b.labels ≠ [] → a.dimension ≠ b.dimension →
        a.product b = .error (.shape (.dimensionMismatch a.dimension b.dimension))) := by
  refine ⟨fun dimension hd ha hb => ?_, product_of_dimension_ne⟩
  obtain ⟨c, hc, h⟩ := exists_product hd ha hb
  refine ⟨c, hc, h.labels, h.hasDimension, fun index hindex => ?_, fun hpa hpb index hindex => ?_⟩
  · rw [component_eq_lookup hindex, h.lookup _ (h.hasDimension.below hd hindex)]
  · have hsum := h.denotes hpa hpb (h.hasDimension.below hd hindex)
    have hshared : (sharedLabels a.labels b.labels).Nodup := a.nodup_labels.filter _
    rw [polySum_eq_sum hshared] at hsum
    have hmul : ∀ μ, (a.lookup μ * b.lookup μ).Denotes ((a.lookup μ).poly * (b.lookup μ).poly) := fun μ =>
      (Scalar.denotes_poly (hpa.lookup μ)).mul (Scalar.denotes_poly (hpb.lookup μ))
    have hflat := Scalar.sum_denotes (List.forall_mem_map.mpr fun values
      (_ : values ∈ multiIndices dimension (sharedLabels a.labels b.labels).length) =>
        (hmul ((Assignment.ofIndex c.labels index).update (sharedLabels a.labels b.labels) values)).isPolynomial)
    rw [component_eq_lookup hindex, Scalar.expand_eq_iff hsum.isPolynomial hflat.isPolynomial, hsum.poly_eq,
      hflat.poly_eq, List.map_map]
    refine congrArg List.sum (List.map_congr_left fun values _ => ?_)
    exact (hmul _).poly_eq.symm

/-- A tensor of symbols, as `general` builds it. -/
def symbolic (labels : List String) (nodup : labels.Nodup) (dimension : ℕ) (name : String) : Tensor :=
  ofFunction labels nodup dimension fun index => .symbol (componentName name index)

theorem symbolic_isPolynomial (labels : List String) (nodup : labels.Nodup) (dimension : ℕ) (name : String) :
    (symbolic labels nodup dimension name).IsPolynomial := by
  intro s hs
  obtain ⟨index, -, rfl⟩ := List.mem_map.mp hs
  exact (Scalar.symbol_denotes _).isPolynomial

/-- Two axes are summed over at once, at different places of the two factors; a vector of another dimension is
refused. -/
theorem product_sums_shared_two :
    let A := symbolic ["i", "j"] (by decide) 2 "A"
    let B := symbolic ["j", "k", "i"] (by decide) 2 "B"
    (∃ c, A.product B = .ok c ∧ c.labels = ["k"] ∧
      (c.component [1]).expand =
        (Scalar.sum [.symbol "A_0_0" * .symbol "B_0_1_0", .symbol "A_0_1" * .symbol "B_1_1_0",
          .symbol "A_1_0" * .symbol "B_0_1_1", .symbol "A_1_1" * .symbol "B_1_1_1"]).expand) ∧
      A.product (symbolic ["j"] (by decide) 3 "v") = .error (.shape (.dimensionMismatch 2 3)) := by
  intro A B
  obtain ⟨c, hc, hlabels, hdimension, -, hexpand⟩ :=
    (product_sums_shared A B).1 2 (by decide) (fun _ => rfl) (fun _ => rfl)
  have hk : c.labels = ["k"] := hlabels.trans (by decide)
  have hrange : c.dimension = 2 := hdimension (by simp [hk])
  have hindex : [1] ∈ c.indices := by
    refine mem_multiIndices.mpr ⟨?_, ?_⟩
    · rw [rank, hk]
      rfl
    · rw [hrange]
      decide
  have hsum := hexpand (symbolic_isPolynomial _ _ _ _) (symbolic_isPolynomial _ _ _ _) [1] hindex
  rw [hk] at hsum
  refine ⟨⟨c, hc, hk, hsum.trans ?_⟩, ?_⟩
  · decide +kernel
  · exact (product_sums_shared A (symbolic ["j"] _ 3 "v")).2 (by simp [A, symbolic, ofFunction])
      (by simp [symbolic, ofFunction]) (by decide)

end Tensor

end TensorEquations
