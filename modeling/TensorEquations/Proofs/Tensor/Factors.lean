import TensorEquations.Proofs.Tensor.Product

/-!
# Products of many tensors

A label that two of the factors carry is summed over at the moment when these two meet, and a label that more of
them carry is summed over and comes back.

* `carriers`, `pairedLabels` — how many of some tensors carry a label, and the labels that two of them carry.
* `Carries`, `Carries.product` — **the product carries the labels that an odd number of factors carry.**
* `Sums`, `Sums.product` — **if no label is carried by more than two factors, the product is the sum of the
  products of their components over all values of the paired labels.**
* `Sums.equals` — products of the same factors are equal by label.
-/

namespace TensorEquations.Tensor

open MvPolynomial

variable {dimension : ℕ} {ts us : List Tensor} {t u c : Tensor} {l : String}

/-! ## Labels of several tensors -/

/-- How many of some tensors carry a label. -/
def carriers (ts : List Tensor) (l : String) : ℕ := ts.countP fun t => l ∈ t.labels

/-- The labels that just two of some tensors carry. -/
def pairedLabels (ts : List Tensor) : List String :=
  (ts.flatMap (·.labels)).dedup.filter fun l => carriers ts l = 2

theorem carriers_append (ts us : List Tensor) (l : String) :
    carriers (ts ++ us) l = carriers ts l + carriers us l := List.countP_append

theorem carriers_perm (h : ts.Perm us) (l : String) : carriers ts l = carriers us l := h.countP_eq _

theorem carriers_singleton (t : Tensor) (l : String) : carriers [t] l = if l ∈ t.labels then 1 else 0 := by
  simp [carriers, List.countP_cons]

theorem mem_pairedLabels : l ∈ pairedLabels ts ↔ carriers ts l = 2 := by
  unfold pairedLabels
  rw [List.mem_filter, decide_eq_true_eq, List.mem_dedup, List.mem_flatMap]
  refine ⟨And.right, fun h => ⟨?_, h⟩⟩
  have hpos : 0 < ts.countP fun t => l ∈ t.labels := by
    show 0 < carriers ts l
    omega
  obtain ⟨t, ht, hl⟩ := List.countP_pos_iff.mp hpos
  exact ⟨t, ht, of_decide_eq_true hl⟩

/-- A bound for the labels that occur holds for all. -/
theorem carriers_le {n : ℕ} (h : ∀ l ∈ ts.flatMap (·.labels), carriers ts l ≤ n) (l : String) :
    carriers ts l ≤ n := by
  by_cases hl : l ∈ ts.flatMap (·.labels)
  · exact h l hl
  · have hnone : carriers ts l = 0 := by
      refine List.countP_eq_zero.mpr fun t ht htl => hl (List.mem_flatMap.mpr ⟨t, ht, ?_⟩)
      exact of_decide_eq_true htl
    omega

theorem nodup_pairedLabels (ts : List Tensor) : (pairedLabels ts).Nodup := (List.nodup_dedup _).filter _

theorem pairedLabels_perm (h : ts.Perm us) : (pairedLabels ts).Perm (pairedLabels us) := by
  refine (List.perm_ext_iff_of_nodup (nodup_pairedLabels ts) (nodup_pairedLabels us)).mpr ?_
  intro l
  rw [mem_pairedLabels, mem_pairedLabels, carriers_perm h]

/-! ## The labels of a product -/

/-- A tensor that carries the labels that an odd number of factors carry. -/
structure Carries (dimension : ℕ) (ts : List Tensor) (t : Tensor) : Prop where
  hasDimension : t.HasDimension dimension
  mem_labels : ∀ l, l ∈ t.labels ↔ carriers ts l % 2 = 1

theorem carries_factor (h : t.HasDimension dimension) : Carries dimension [t] t := by
  refine ⟨h, ?_⟩
  intro l
  rw [carriers_singleton]
  split <;> simp_all

/-- **The labels of a product**: a shared label has gone, so the number of carriers stays odd for the others. -/
theorem Carries.product (ht : Carries dimension ts t) (hu : Carries dimension us u)
    (h : Contracts dimension t u c) : Carries dimension (ts ++ us) c := by
  refine ⟨h.hasDimension, ?_⟩
  intro l
  rw [h.labels, mem_freeLabels, ht.mem_labels, hu.mem_labels, carriers_append]
  omega

/-! ## The components of a product -/

/-- The components of a tensor as polynomials. -/
noncomputable def lookupPoly (t : Tensor) : Assignment → Poly := fun ν => (t.lookup ν).poly

theorem lookupPoly_ignores (h : l ∉ t.labels) : Ignores l (lookupPoly t) := by
  intro ν i
  unfold lookupPoly lookup
  rw [map_update_of_notMem h]

theorem prod_ignores (h : carriers ts l = 0) : Ignores l (ts.map lookupPoly).prod := by
  induction ts with
  | nil =>
    intro ν i
    rfl
  | cons t ts ih =>
    have hsplit := carriers_append [t] ts l
    rw [List.singleton_append, h] at hsplit
    have ht : l ∉ t.labels := by
      intro hl
      rw [carriers_singleton, if_pos hl] at hsplit
      omega
    have hts := ih (by omega)
    intro ν i
    rw [List.map_cons, List.prod_cons, Pi.mul_apply, Pi.mul_apply, lookupPoly_ignores ht ν i, hts ν i]

/-- A tensor of polynomials whose components are the sums over the values of the paired labels. -/
structure Sums (dimension : ℕ) (ts : List Tensor) (t : Tensor) : Prop where
  isPolynomial : t.IsPolynomial
  lookup : ∀ ν, Below dimension ν →
    lookupPoly t ν = polySum dimension (pairedLabels ts) (ts.map lookupPoly).prod ν

theorem sums_factor (h : t.IsPolynomial) : Sums dimension [t] t := by
  have hnone : pairedLabels [t] = [] := by
    rw [List.eq_nil_iff_forall_not_mem]
    intro l hl
    rw [mem_pairedLabels, carriers_singleton] at hl
    split at hl <;> omega
  refine ⟨h, ?_⟩
  intro ν _
  rw [hnone, List.map_singleton, List.prod_singleton]
  rfl

theorem IsPolynomial.product (ht : t.IsPolynomial) (hu : u.IsPolynomial) (hc : t.product u = .ok c) :
    c.IsPolynomial := by
  have hagree := (related_same (P := Scalar.IsPolynomial)).mpr ht |>.product
    ((related_same (P := Scalar.IsPolynomial)).mpr hu)
  obtain ⟨c', hc', hrelated⟩ := hagree.exists_ok hc
  obtain rfl : c = c' := Except.ok.inj (hc.symm.trans hc')
  exact (related_same (P := Scalar.IsPolynomial)).mp hrelated

/-- The labels that two of all factors carry: those that the two products share, and those that two factors of the
same product carry. -/
theorem pairedLabels_append (ht : Carries dimension ts t) (hu : Carries dimension us u)
    (htwo : ∀ l, carriers (ts ++ us) l ≤ 2) :
    (sharedLabels t.labels u.labels ++ (pairedLabels ts ++ pairedLabels us)).Perm (pairedLabels (ts ++ us)) := by
  have hshared : ∀ l, l ∈ sharedLabels t.labels u.labels ↔ carriers ts l % 2 = 1 ∧ carriers us l % 2 = 1 := by
    intro l
    rw [mem_sharedLabels, ht.mem_labels, hu.mem_labels]
  have hsum : ∀ l, carriers ts l + carriers us l ≤ 2 := fun l => carriers_append ts us l ▸ htwo l
  have hnodup : (sharedLabels t.labels u.labels ++ (pairedLabels ts ++ pairedLabels us)).Nodup := by
    refine List.nodup_append.mpr ⟨t.nodup_labels.filter _, List.nodup_append.mpr
      ⟨nodup_pairedLabels ts, nodup_pairedLabels us, ?_⟩, ?_⟩
    · rintro l hl m hm rfl
      rw [mem_pairedLabels] at hl hm
      have := hsum l
      omega
    · rintro l hl m hm rfl
      rw [hshared] at hl
      rw [List.mem_append, mem_pairedLabels, mem_pairedLabels] at hm
      have := hsum l
      omega
  refine (List.perm_ext_iff_of_nodup hnodup (nodup_pairedLabels _)).mpr ?_
  intro l
  have := hsum l
  rw [List.mem_append, List.mem_append, hshared, mem_pairedLabels, mem_pairedLabels, mem_pairedLabels,
    carriers_append]
  omega

/-- **The components of a product**: the sums of both factors are taken out, since no label that two factors of one
side carry occurs on the other side. -/
theorem Sums.product (ht : Sums dimension ts t) (hu : Sums dimension us u) (hct : Carries dimension ts t)
    (hcu : Carries dimension us u) (htwo : ∀ l, carriers (ts ++ us) l ≤ 2) (hc : t.product u = .ok c)
    (h : Contracts dimension t u c) : Sums dimension (ts ++ us) c := by
  refine ⟨ht.isPolynomial.product hu.isPolynomial hc, ?_⟩
  have hsum : ∀ l, carriers ts l + carriers us l ≤ 2 := fun l => carriers_append ts us l ▸ htwo l
  have hleft : ∀ l ∈ pairedLabels ts,
      Ignores l (polySum dimension (pairedLabels us) (us.map lookupPoly).prod) := by
    intro l hl
    rw [mem_pairedLabels] at hl
    have hnone : carriers us l = 0 := by
      have := hsum l
      omega
    exact (prod_ignores hnone).polySum dimension _
  have hright : ∀ l ∈ pairedLabels us, Ignores l (ts.map lookupPoly).prod := by
    intro l hl
    rw [mem_pairedLabels] at hl
    refine prod_ignores ?_
    have := hsum l
    omega
  have hmul : polySum dimension (pairedLabels ts) (ts.map lookupPoly).prod *
      polySum dimension (pairedLabels us) (us.map lookupPoly).prod =
        polySum dimension (pairedLabels ts ++ pairedLabels us) ((ts ++ us).map lookupPoly).prod := by
    rw [← polySum_mul_right hleft, ← polySum_mul_left hright, polySum_append, List.map_append, List.prod_append]
  intro ν hν
  calc lookupPoly c ν
      = polySum dimension (sharedLabels t.labels u.labels) (lookupPoly t * lookupPoly u) ν :=
        (h.denotes ht.isPolynomial hu.isPolynomial hν).poly_eq
    _ = polySum dimension (sharedLabels t.labels u.labels)
          (polySum dimension (pairedLabels ts ++ pairedLabels us) ((ts ++ us).map lookupPoly).prod) ν := by
        refine polySum_congr (fun μ hμ => ?_) _ ν hν
        rw [Pi.mul_apply, ht.lookup μ hμ, hu.lookup μ hμ, ← hmul, Pi.mul_apply]
    _ = polySum dimension (pairedLabels (ts ++ us)) ((ts ++ us).map lookupPoly).prod ν := by
        rw [← polySum_append, polySum_perm (pairedLabels_append hct hcu htwo)]

/-! ## Equality by label -/

theorem HasDimension.dimension_eq (ht : t.HasDimension dimension) (hu : u.HasDimension dimension)
    (h : t.labels.Perm u.labels) : t.dimension = u.dimension := by
  by_cases hl : t.labels = []
  · have hu' : u.labels = [] := by simpa [hl] using h
    rw [t.dimension_of_scalar hl, u.dimension_of_scalar hu']
  · rw [ht hl, hu fun he => hl (by simpa [he] using h)]

/-- **Products of the same factors are equal by label.** -/
theorem Sums.equals (hd : 1 ≤ dimension) (hperm : ts.Perm us) (hct : Carries dimension ts t)
    (hcu : Carries dimension us u) (ht : Sums dimension ts t) (hu : Sums dimension us u) : t.equals u = true := by
  have hlabels : t.labels.Perm u.labels := by
    refine (List.perm_ext_iff_of_nodup t.nodup_labels u.nodup_labels).mpr ?_
    intro l
    rw [hct.mem_labels, hcu.mem_labels, carriers_perm hperm]
  refine (equals_iff hlabels (hct.hasDimension.dimension_eq hcu.hasDimension hlabels)).mpr ?_
  intro index hindex
  have hν := hct.hasDimension.below hd hindex
  have hsub := (Scalar.denotes_poly (ht.isPolynomial.lookup (.ofIndex t.labels index))).sub
    (Scalar.denotes_poly (hu.isPolynomial.lookup (.ofIndex t.labels index)))
  have hprod : (ts.map lookupPoly).prod = (us.map lookupPoly).prod := (hperm.map lookupPoly).prod_eq
  have heq : lookupPoly t (.ofIndex t.labels index) = lookupPoly u (.ofIndex t.labels index) := by
    rw [ht.lookup _ hν, hu.lookup _ hν, polySum_perm (pairedLabels_perm hperm), hprod]
  rw [Scalar.expand_isZero hsub.isPolynomial, hsub.poly_eq]
  exact sub_eq_zero.mpr heq

end TensorEquations.Tensor
