import Mathlib.Logic.Function.DependsOn
import TensorEquations.Proofs.Tensor.Comparison

/-!
# Sums over the values of labels

* `sumOver` — the sum of scalars over the values of some labels, one label after the other.
* `labelSum`, `polySum` — the same for polynomials.
* `polySum_perm`, `polySum_mul_left` — **the order of the labels does not matter, and a factor that does not
  depend on them is taken out.**
* `polySum_eq_sum` — a sum over some labels is one sum over all their values.
* `dependsOn_sumOver` — the values of the labels that a sum runs over do not matter.
* `sumOver_denotes` — a sum of polynomial scalars stands for the sum of their polynomials.
* `Below` — assignments of values in the range of all axes.
-/

namespace TensorEquations

open MvPolynomial Tensor

/-- The sum over the values of some labels, one label after the other; the first label is summed over first. -/
def sumOver (dimension : ℕ) : List String → (Assignment → Scalar) → Assignment → Scalar
  | [], F => F
  | l :: ls, F =>
    sumOver dimension ls fun ν => addUp ((List.range dimension).map fun i => F (Function.update ν l i))

/-- The sum over the values of one label. -/
noncomputable def labelSum (dimension : ℕ) (l : String) (F : Assignment → Poly) : Assignment → Poly :=
  fun ν => ∑ i ∈ Finset.range dimension, F (Function.update ν l i)

/-- The sum over the values of some labels. -/
noncomputable def polySum (dimension : ℕ) (labels : List String) (F : Assignment → Poly) : Assignment → Poly :=
  labels.foldr (labelSum dimension) F

variable {dimension : ℕ} {l m : String} {labels labels' : List String} {F G : Assignment → Poly}

/-! ## The order of the labels -/

theorem labelSum_comm (dimension : ℕ) (l m : String) (F : Assignment → Poly) :
    labelSum dimension l (labelSum dimension m F) = labelSum dimension m (labelSum dimension l F) := by
  by_cases hlm : l = m
  · rw [hlm]
  · funext ν
    unfold labelSum
    rw [Finset.sum_comm]
    refine Finset.sum_congr rfl fun i _ => Finset.sum_congr rfl fun j _ => ?_
    rw [Function.update_comm hlm]

instance (dimension : ℕ) : LeftCommutative (labelSum dimension) := ⟨labelSum_comm dimension⟩

theorem polySum_cons (dimension : ℕ) (l : String) (labels : List String) (F : Assignment → Poly) :
    polySum dimension (l :: labels) F = labelSum dimension l (polySum dimension labels F) := rfl

theorem polySum_append (dimension : ℕ) (labels labels' : List String) (F : Assignment → Poly) :
    polySum dimension (labels ++ labels') F = polySum dimension labels (polySum dimension labels' F) :=
  List.foldr_append

/-- **The order of the labels does not matter.** -/
theorem polySum_perm (h : labels.Perm labels') : polySum dimension labels F = polySum dimension labels' F :=
  h.foldr_eq F

/-! ## Factors that do not depend on a label -/

/-- A function of assignments that does not depend on the value of a label. -/
def Ignores (l : String) (F : Assignment → Poly) : Prop := ∀ ν i, F (Function.update ν l i) = F ν

theorem Ignores.labelSum (h : Ignores l F) (dimension : ℕ) (m : String) :
    Ignores l (labelSum dimension m F) := by
  intro ν i
  unfold TensorEquations.labelSum
  refine Finset.sum_congr rfl fun j _ => ?_
  by_cases hlm : l = m
  · rw [hlm, Function.update_idem]
  · rw [Function.update_comm hlm, h]

theorem Ignores.polySum (h : Ignores l F) (dimension : ℕ) : ∀ labels : List String,
    Ignores l (polySum dimension labels F)
  | [] => h
  | m :: labels => (h.polySum dimension labels).labelSum dimension m

theorem labelSum_mul_left (h : Ignores l F) : labelSum dimension l (F * G) = F * labelSum dimension l G := by
  funext ν
  simp only [labelSum, Pi.mul_apply, h ν, Finset.mul_sum]

/-- **A factor that does not depend on the labels is taken out of the sum.** -/
theorem polySum_mul_left : ∀ {labels : List String}, (∀ l ∈ labels, Ignores l F) →
    polySum dimension labels (F * G) = F * polySum dimension labels G
  | [], _ => rfl
  | l :: labels, h => by
    rw [polySum_cons, polySum_mul_left fun m hm => h m (List.mem_cons_of_mem _ hm),
      labelSum_mul_left (h l List.mem_cons_self), polySum_cons]

theorem polySum_mul_right (h : ∀ l ∈ labels, Ignores l G) :
    polySum dimension labels (F * G) = polySum dimension labels F * G := by
  rw [mul_comm, polySum_mul_left h, mul_comm]

/-! ## One sum over all values -/

/-- An assignment with the values of some labels replaced. -/
def Assignment.update (ν : Assignment) (labels : List String) (values : List ℕ) : Assignment :=
  fun l => if l ∈ labels then Assignment.ofIndex labels values l else ν l

theorem Assignment.update_cons (ν : Assignment) (hl : l ∉ labels) (i : ℕ) (values : List ℕ) :
    ν.update (l :: labels) (i :: values) = Assignment.update (Function.update ν l i) labels values := by
  funext m
  unfold Assignment.update Assignment.ofIndex
  by_cases hm : m = l
  · subst hm
    simp [hl]
  · have hidx : (l :: labels).idxOf m = labels.idxOf m + 1 := List.idxOf_cons_ne labels (Ne.symm hm)
    simp [hm, hidx]

/-- A sum over labels, one after the other, is one sum over all their values. -/
theorem polySum_eq_sum : ∀ {labels : List String}, labels.Nodup → ∀ ν,
    polySum dimension labels F ν =
      ((multiIndices dimension labels.length).map fun values => F (ν.update labels values)).sum
  | [], _, ν => by
    have hν : ν.update [] [] = ν := by
      funext l
      simp [Assignment.update]
    simp [polySum, multiIndices, hν]
  | l :: labels, hn, ν => by
    obtain ⟨hl, hn⟩ := List.nodup_cons.mp hn
    have hinner : ∀ i, polySum dimension labels F (Function.update ν l i) =
        (((multiIndices dimension labels.length).map (i :: ·)).map fun values =>
          F (ν.update (l :: labels) values)).sum := by
      intro i
      rw [polySum_eq_sum hn, List.map_map]
      refine congrArg List.sum (List.map_congr_left fun values _ => ?_)
      rw [Function.comp, Assignment.update_cons ν hl]
    rw [polySum_cons, labelSum, List.length_cons, multiIndices, List.map_flatMap, List.flatMap_def,
      List.sum_flatten, List.map_map]
    simp only [hinner]
    rfl

/-! ## Sums of scalars -/

section Scalars

variable {A : Set String} {n : ℕ} {H : Assignment → Scalar}

theorem dependsOn_addUp_update (hH : DependsOn H A) (l : String) :
    DependsOn (fun ν => addUp ((List.range n).map fun i => H (Function.update ν l i))) (A \ {l}) := by
  intro ν μ h
  refine congrArg addUp (List.map_congr_left fun i _ => hH fun m hm => ?_)
  by_cases he : m = l
  · rw [he, Function.update_self, Function.update_self]
  · rw [Function.update_of_ne he, Function.update_of_ne he, h m ⟨hm, he⟩]

/-- A sum does not depend on the values of the labels that it runs over. -/
theorem dependsOn_sumOver (hH : DependsOn H A) : DependsOn (sumOver n labels H) (A \ {l | l ∈ labels}) := by
  induction labels generalizing A H with
  | nil => exact fun _ _ h => hH fun l hl => h l ⟨hl, List.not_mem_nil⟩
  | cons l labels ih =>
    intro ν μ h
    refine ih (dependsOn_addUp_update hH l) fun m hm => h m ⟨hm.1.1, fun hmem => ?_⟩
    obtain rfl | hmem := List.mem_cons.mp hmem
    · exact hm.1.2 rfl
    · exact hm.2 hmem

end Scalars

theorem foldl_add_denotes : ∀ {xs : List Scalar} {x : Scalar} {p : Poly}, x.Denotes p →
    (∀ y ∈ xs, y.isPolynomial = true) → (xs.foldl (· + ·) x).Denotes (p + (xs.map Scalar.poly).sum)
  | [], _, _, hx, _ => by simpa using hx
  | y :: xs, x, p, hx, h => by
    have hy := hx.add (Scalar.denotes_poly (h y List.mem_cons_self))
    have hsum := foldl_add_denotes hy fun z hz => h z (List.mem_cons_of_mem _ hz)
    rwa [add_assoc, ← List.sum_cons, ← List.map_cons] at hsum

theorem addUp_denotes {xs : List Scalar} (h : ∀ x ∈ xs, x.isPolynomial = true) :
    (addUp xs).Denotes (xs.map Scalar.poly).sum := by
  cases xs with
  | nil => exact Scalar.zero_denotes
  | cons x xs =>
    exact foldl_add_denotes (Scalar.denotes_poly (h x List.mem_cons_self))
      fun y hy => h y (List.mem_cons_of_mem _ hy)

/-- **A sum of polynomial scalars stands for the sum of their polynomials.** -/
theorem sumOver_denotes (dimension : ℕ) : ∀ (labels : List String) {F : Assignment → Scalar},
    (∀ ν, (F ν).isPolynomial = true) → ∀ ν,
      (sumOver dimension labels F ν).Denotes (polySum dimension labels (fun μ => (F μ).poly) ν)
  | [], _, h, ν => Scalar.denotes_poly (h ν)
  | l :: labels, F, h, ν => by
    have hinner : ∀ μ : Assignment,
        (addUp ((List.range dimension).map fun i => F (Function.update μ l i))).Denotes
          (labelSum dimension l (fun μ => (F μ).poly) μ) := by
      intro μ
      have hsum := addUp_denotes (List.forall_mem_map.mpr fun i (_ : i ∈ List.range dimension) =>
        h (Function.update μ l i))
      rwa [List.map_map] at hsum
    have hlast := sumOver_denotes dimension labels (fun μ => (hinner μ).isPolynomial) ν
    have hpoly : (fun μ => (addUp ((List.range dimension).map fun i => F (Function.update μ l i))).poly) =
        labelSum dimension l fun μ => (F μ).poly := funext fun μ => (hinner μ).poly_eq
    rw [hpoly] at hlast
    have hperm : (labels ++ [l]).Perm (l :: labels) := List.perm_append_singleton l labels
    rw [← polySum_perm hperm, polySum_append]
    exact hlast

/-! ## Values in the range of all axes -/

/-- All labels have values below the dimension. -/
def Below (dimension : ℕ) (ν : Assignment) : Prop := ∀ l, ν l < dimension

variable {ν : Assignment}

theorem Below.update (h : Below dimension ν) (l : String) {i : ℕ} (hi : i < dimension) :
    Below dimension (Function.update ν l i) := by
  intro m
  by_cases hm : m = l
  · subst hm
    simpa using hi
  · simpa [hm] using h m

theorem Below.ofIndex {index : List ℕ} (hd : 1 ≤ dimension) (h : ∀ i ∈ index, i < dimension)
    (labels : List String) : Below dimension (.ofIndex labels index) := by
  intro l
  unfold Assignment.ofIndex
  rw [List.getD_eq_getElem?_getD]
  cases hi : index[labels.idxOf l]? with
  | none => exact hd
  | some i => simpa using h i (List.mem_of_getElem? hi)

/-- Functions that agree where the labels have values in range and all others keep theirs have the same sums. -/
theorem polySum_congr_range : ∀ {labels : List String} {ν : Assignment},
    (∀ μ, (∀ l ∈ labels, μ l < dimension) → (∀ l, l ∉ labels → μ l = ν l) → F μ = G μ) →
      polySum dimension labels F ν = polySum dimension labels G ν
  | [], _, h => h _ (List.forall_mem_nil _) fun _ _ => rfl
  | l :: labels, ν, h => by
    rw [polySum_cons, polySum_cons, labelSum, labelSum]
    refine Finset.sum_congr rfl fun i hi => polySum_congr_range fun μ hμ hkeep => h μ ?_ ?_
    · refine List.forall_mem_cons.mpr ⟨?_, hμ⟩
      by_cases hl : l ∈ labels
      · exact hμ l hl
      · rw [hkeep l hl, Function.update_self]
        exact Finset.mem_range.mp hi
    · intro m hm
      obtain ⟨hml, hm⟩ := not_or.mp (mt List.mem_cons.mpr hm)
      rw [hkeep m hm, Function.update_of_ne hml]

/-- Functions that agree on all values in range have the same sums. -/
theorem polySum_congr (h : ∀ ν, Below dimension ν → F ν = G ν) (labels : List String) (ν : Assignment)
    (hν : Below dimension ν) : polySum dimension labels F ν = polySum dimension labels G ν := by
  refine polySum_congr_range fun μ hμ hkeep => h μ fun l => ?_
  by_cases hl : l ∈ labels
  · exact hμ l hl
  · exact hkeep l hl ▸ hν l

end TensorEquations
