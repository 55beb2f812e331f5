import TensorEquations.Proofs.Agreement
import TensorEquations.Proofs.Scalar.Replacement
import TensorEquations.Tensor.Arithmetic

/-!
# Related tensors

Two tensors of one shape are related when their components are, one by one.

* `Scalar.IsLinearRelation`, `Scalar.IsRingRelation` — relations that linear operations, or sums and
  products, keep.
* `Scalar.Maps` — the second polynomial is the image of the first one under a homomorphism.
* `Scalar.Same` — a relation of a scalar with itself, for properties of scalars.
* `Tensor.Related`, `Tensor.Related.lookup`, `Tensor.tabulate_related` — related tensors, how they are
  read and built.
* `Tensor.Related.rename`, `Tensor.Related.add`, `Tensor.Related.product` and the others — **operations
  on related tensors both fail or have related values.**
-/

namespace TensorEquations

open MvPolynomial

/-! ## Relations of scalars -/

namespace Scalar

/-- A relation that linear operations keep. -/
class IsLinearRelation (S : Scalar → Scalar → Prop) : Prop where
  rational : ∀ q : ℚ, S (rational q) (rational q)
  add : ∀ {a a' b b' : Scalar}, S a a' → S b b' → S (a + b) (a' + b')
  neg : ∀ {a a' : Scalar}, S a a' → S (-a) (-a')
  scale : ∀ {a a' : Scalar} (q : ℚ), S a a' → S (a * .rational q) (a' * .rational q)
  expand : ∀ {a a' : Scalar}, S a a' → S a.expand a'.expand

/-- A relation that products keep as well. -/
class IsRingRelation (S : Scalar → Scalar → Prop) : Prop extends IsLinearRelation S where
  mul : ∀ {a a' b b' : Scalar}, S a a' → S b b' → S (a * b) (a' * b')

theorem IsLinearRelation.zero {S : Scalar → Scalar → Prop} [IsLinearRelation S] : S ⟨[]⟩ ⟨[]⟩ :=
  rational 0

/-- Polynomial scalars the second of which is the image of the first one. -/
structure Maps (φ : Poly →ₐ[ℚ] Poly) (a b : Scalar) : Prop where
  left : a.isPolynomial = true
  right : b.isPolynomial = true
  poly_eq : b.poly = φ a.poly

variable {φ : Poly →ₐ[ℚ] Poly}

theorem maps_of_denotes {a b : Scalar} {p : Poly} (ha : a.Denotes p) (hb : b.Denotes (φ p)) :
    Maps φ a b := ⟨ha.isPolynomial, hb.isPolynomial, by rw [hb.poly_eq, ha.poly_eq]⟩

theorem Maps.denotes_left {a b : Scalar} (h : Maps φ a b) : a.Denotes a.poly := ⟨h.left, rfl⟩

theorem Maps.denotes_right {a b : Scalar} (h : Maps φ a b) : b.Denotes (φ a.poly) :=
  ⟨h.right, h.poly_eq⟩

theorem maps_id {a : Scalar} (h : a.isPolynomial = true) : Maps (AlgHom.id ℚ Poly) a a := ⟨h, h, rfl⟩

theorem maps_rational (q : ℚ) : Maps φ (rational q) (rational q) :=
  maps_of_denotes (rational_denotes q) (by rw [algHom_C]; exact rational_denotes q)

theorem Maps.mul {a a' b b' : Scalar} (ha : Maps φ a a') (hb : Maps φ b b') :
    Maps φ (a * b) (a' * b') :=
  maps_of_denotes (ha.denotes_left.mul hb.denotes_left)
    (by rw [map_mul]; exact ha.denotes_right.mul hb.denotes_right)

instance : IsRingRelation (Maps φ) where
  rational := maps_rational
  add ha hb := maps_of_denotes (ha.denotes_left.add hb.denotes_left)
    (by rw [map_add]; exact ha.denotes_right.add hb.denotes_right)
  neg ha := maps_of_denotes ha.denotes_left.neg (by rw [map_neg]; exact ha.denotes_right.neg)
  scale q ha := ha.mul (maps_rational q)
  expand ha := ⟨(expand_denotes ha.left).isPolynomial, (expand_denotes ha.right).isPolynomial, by
    rw [(expand_denotes ha.left).poly_eq, (expand_denotes ha.right).poly_eq, ha.poly_eq]⟩
  mul := Maps.mul

/-- Polynomials that are the same expand to the same scalar. -/
theorem Maps.expand_eq {a b : Scalar} (h : Maps (AlgHom.id ℚ Poly) a b) : a.expand = b.expand :=
  (expand_eq_iff h.left h.right).mpr h.poly_eq.symm

instance : IsRingRelation (@Eq Scalar) where
  rational _ := rfl
  add := by
    rintro a _ b _ rfl rfl
    rfl
  neg := by
    rintro a _ rfl
    rfl
  scale := by
    rintro a _ q rfl
    rfl
  expand := by
    rintro a _ rfl
    rfl
  mul := by
    rintro a _ b _ rfl rfl
    rfl

/-- A scalar with a property, related to itself. -/
def Same (P : Scalar → Prop) (a b : Scalar) : Prop := a = b ∧ P a

/-- Exact coefficients and positive exponents. -/
def IsPolynomial (s : Scalar) : Prop := s.isPolynomial = true

/-- A polynomial of degree at most one in some symbols. -/
structure IsAffine (A : Set String) (s : Scalar) : Prop where
  isPolynomial : s.isPolynomial = true
  degree : s.poly.totalDegree ≤ 1
  symbols : ∀ n ∈ s.poly.vars, n ∈ A

variable {A : Set String}

theorem Denotes.isAffine {s : Scalar} {p : Poly} (h : s.Denotes p) (hp : p.totalDegree ≤ 1)
    (hA : ∀ n ∈ p.vars, n ∈ A) : s.IsAffine A := ⟨h.isPolynomial, h.poly_eq ▸ hp, h.poly_eq ▸ hA⟩

instance : IsRingRelation (Same IsPolynomial) where
  rational q := ⟨rfl, (rational_denotes q).isPolynomial⟩
  add := by
    rintro a _ b _ ⟨rfl, ha⟩ ⟨rfl, hb⟩
    exact ⟨rfl, ((denotes_poly ha).add (denotes_poly hb)).isPolynomial⟩
  neg := by
    rintro a _ ⟨rfl, ha⟩
    exact ⟨rfl, (denotes_poly ha).neg.isPolynomial⟩
  scale := by
    rintro a _ q ⟨rfl, ha⟩
    exact ⟨rfl, ((denotes_poly ha).mul (rational_denotes q)).isPolynomial⟩
  expand := by
    rintro a _ ⟨rfl, ha⟩
    exact ⟨rfl, (expand_denotes ha).isPolynomial⟩
  mul := by
    rintro a _ b _ ⟨rfl, ha⟩ ⟨rfl, hb⟩
    exact ⟨rfl, ((denotes_poly ha).mul (denotes_poly hb)).isPolynomial⟩

instance : IsLinearRelation (Same (IsAffine A)) where
  rational q := by
    refine ⟨rfl, (rational_denotes q).isAffine ?_ ?_⟩
    · rw [totalDegree_C]
      exact Nat.zero_le 1
    · simp
  add := by
    rintro a _ b _ ⟨rfl, ha⟩ ⟨rfl, hb⟩
    refine ⟨rfl, ((denotes_poly ha.isPolynomial).add (denotes_poly hb.isPolynomial)).isAffine
      ((totalDegree_add _ _).trans (max_le ha.degree hb.degree)) fun n hn => ?_⟩
    exact (Finset.mem_union.mp (vars_add_subset _ _ hn)).elim (ha.symbols n) (hb.symbols n)
  neg := by
    rintro a _ ⟨rfl, ha⟩
    refine ⟨rfl, (denotes_poly ha.isPolynomial).neg.isAffine ((totalDegree_neg _).trans_le ha.degree) ?_⟩
    rw [vars_neg]
    exact ha.symbols
  scale := by
    rintro a _ q ⟨rfl, ha⟩
    refine ⟨rfl, ((denotes_poly ha.isPolynomial).mul (rational_denotes q)).isAffine ?_ fun n hn => ?_⟩
    · refine (totalDegree_mul _ _).trans ?_
      rw [totalDegree_C]
      exact ha.degree
    · refine (Finset.mem_union.mp (vars_mul _ _ hn)).elim (ha.symbols n) fun hn => ?_
      simp at hn
  expand := by
    rintro a _ ⟨rfl, ha⟩
    exact ⟨rfl, (expand_denotes ha.isPolynomial).isAffine ha.degree ha.symbols⟩

end Scalar

/-! ## Relations of tensors -/

namespace Tensor

open Scalar (IsLinearRelation IsRingRelation Maps Same)

/-- Tensors of one shape whose components are related. -/
structure Related (S : Scalar → Scalar → Prop) (t u : Tensor) : Prop where
  labels : u.labels = t.labels
  dimension : u.dimension = t.dimension
  components : ∀ i, S (t.components.getD i default) (u.components.getD i default)

variable {S S' : Scalar → Scalar → Prop} {φ : Poly →ₐ[ℚ] Poly}

/-! ## Reading -/

variable {t u t' u' : Tensor}

theorem Related.size (h : t.Related S u) : u.components.size = t.components.size := by
  rw [u.size_components, t.size_components, h.labels, h.dimension]

theorem Related.component (h : t.Related S u) (index : List Nat) :
    S (t.component index) (u.component index) := by
  unfold Tensor.component
  rw [h.dimension]
  exact h.components _

theorem Related.lookup (h : t.Related S u) (ν : Assignment) :
    S (t.lookup ν) (u.lookup ν) := by
  unfold Tensor.lookup
  rw [h.labels]
  exact h.component _

theorem Related.mono (h : t.Related S u) (hs : ∀ a b, S a b → S' a b) : t.Related S' u :=
  ⟨h.labels, h.dimension, fun i => hs _ _ (h.components i)⟩

/-! ## Labels -/

theorem Related.relabel (h : t.Related S u) {labels labels' : List String} (hl : labels' = labels)
    (hn : labels.length = t.labels.length) (hn' : labels'.length = u.labels.length) :
    Agree (Related S) (t.relabel labels hn) (u.relabel labels' hn') := by
  subst hl
  unfold Tensor.relabel
  split
  · exact Agree.ok ⟨rfl, h.dimension, h.components⟩
  · exact Agree.error _ _

theorem Related.rename (h : t.Related S u) (old new : List String) :
    Agree (Related S) (t.rename old new) (u.rename old new) := by
  unfold Tensor.rename
  have hl := h.labels
  split
  · exact Agree.error _ _
  · simp only [hl]
    split
    · exact Agree.error _ _
    · exact h.relabel rfl _ _

theorem Related.withLabels (h : t.Related S u) (labels : List String) :
    Agree (Related S) (t.withLabels labels) (u.withLabels labels) := by
  unfold Tensor.withLabels
  by_cases hn : labels.length = t.labels.length
  · rw [dif_pos hn, dif_pos (h.labels ▸ hn)]
    exact h.relabel rfl _ _
  · rw [dif_neg hn, dif_neg (h.labels ▸ hn)]
    exact Agree.error _ _

theorem Related.checkDimensions (h : t.Related S u) (h' : t'.Related S u') :
    Agree (fun _ _ => True) (t.checkDimensions t') (u.checkDimensions u') := by
  unfold Tensor.checkDimensions
  refine Agree.ite ?_ (Agree.error _ _) (Agree.ok trivial)
  rw [h.labels, h'.labels, h.dimension, h'.dimension]

theorem forall₂_map_related {α : Type} {f g : α → Scalar} (h : ∀ x, S (f x) (g x)) :
    ∀ xs : List α, List.Forall₂ S (xs.map f) (xs.map g)
  | [] => List.Forall₂.nil
  | x :: xs => List.Forall₂.cons (h x) (forall₂_map_related h xs)

/-! ## Building -/

theorem Related.map [IsLinearRelation S'] (h : t.Related S u) {f g : Scalar → Scalar}
    (hf : ∀ a b, S a b → S' (f a) (g b)) :
    (t.map f).Related S' (u.map g) := by
  refine ⟨h.labels, h.dimension, fun i => ?_⟩
  have hi := h.components i
  simp only [Array.getD_eq_getD_getElem?] at hi
  simp only [Tensor.map, Array.getD_eq_getD_getElem?, Array.getElem?_map]
  by_cases hlt : i < t.components.size
  · have hlt' : i < u.components.size := h.size ▸ hlt
    rw [Array.getElem?_eq_getElem hlt, Array.getElem?_eq_getElem hlt'] at hi ⊢
    exact hf _ _ hi
  · have hge' : ¬ i < u.components.size := h.size ▸ hlt
    rw [Array.getElem?_eq_none (not_lt.mp hlt), Array.getElem?_eq_none (not_lt.mp hge')]
    exact IsLinearRelation.zero

/-- A function that only changes the second tensor. -/
theorem Related.map_right [IsLinearRelation S'] (h : t.Related S u) {g : Scalar → Scalar}
    (hg : ∀ a b, S a b → S' a (g b)) : t.Related S' (u.map g) := by
  have hid : t.map id = t := by simp [Tensor.map]
  rw [← hid]
  exact h.map hg

/-- A function that only changes the first tensor. -/
theorem Related.map_left [IsLinearRelation S'] (h : t.Related S u) {f : Scalar → Scalar}
    (hf : ∀ a b, S a b → S' (f a) b) : (t.map f).Related S' u := by
  have hid : u.map id = u := by simp [Tensor.map]
  rw [← hid]
  exact h.map hf

variable [IsLinearRelation S]

theorem getD_map_related {α : Type} {xs : List α} {f g : α → Scalar}
    (h : ∀ x, S (f x) (g x)) (i : Nat) :
    S ((xs.map f).toArray.getD i default) ((xs.map g).toArray.getD i default) := by
  simp only [Array.getD_eq_getD_getElem?, List.getElem?_toArray, List.getElem?_map]
  cases xs[i]? with
  | none => exact IsLinearRelation.zero
  | some x => exact h x

theorem ofFunction_related {labels labels' : List String} (hl : labels' = labels)
    (nodup : labels.Nodup) (nodup' : labels'.Nodup) {dimension dimension' : Nat}
    (hd : dimension' = dimension) {f g : List Nat → Scalar}
    (h : ∀ index, S (f index) (g index)) :
    (ofFunction labels nodup dimension f).Related S (ofFunction labels' nodup' dimension' g) := by
  subst hl hd
  exact ⟨rfl, rfl, getD_map_related h⟩

theorem tabulate_related {labels labels' : List String} (hl : labels' = labels)
    (nodup : labels.Nodup) (nodup' : labels'.Nodup) {dimension dimension' : Nat}
    (hd : dimension' = dimension) {f g : Assignment → Scalar}
    (h : ∀ ν, S (f ν) (g ν)) :
    (tabulate labels nodup dimension f).Related S (tabulate labels' nodup' dimension' g) := by
  unfold tabulate
  subst hl
  exact ofFunction_related rfl nodup nodup' hd fun _ => h _

theorem scalar_related {a b : Scalar} (h : S a b) :
    (Tensor.scalar a).Related S (Tensor.scalar b) := by
  refine ⟨rfl, rfl, fun i => ?_⟩
  cases i with
  | zero => exact h
  | succ i => exact IsLinearRelation.zero

/-! ## Properties of all components -/

/-- A tensor of polynomials. -/
def IsPolynomial (t : Tensor) : Prop := ∀ s ∈ t.toList, s.isPolynomial = true

theorem related_same {P : Scalar → Prop} [IsLinearRelation (Same P)] :
    t.Related (Same P) t ↔ ∀ s ∈ t.toList, P s := by
  constructor
  · intro h s hs
    obtain ⟨i, hi, rfl⟩ := List.getElem_of_mem hs
    have := (h.components i).2
    rwa [Array.getD_eq_getD_getElem?, Array.getElem?_eq_getElem (by simpa [toList] using hi)] at this
  · intro h
    refine ⟨rfl, rfl, fun i => ⟨rfl, ?_⟩⟩
    rw [Array.getD_eq_getD_getElem?]
    by_cases hi : i < t.components.size
    · rw [Array.getElem?_eq_getElem hi]
      exact h _ (by simp [toList])
    · rw [Array.getElem?_eq_none (not_lt.mp hi)]
      exact (IsLinearRelation.zero (S := Same P)).2

/-- Tensors of one shape with equal components are equal. -/
theorem Related.ext (h : t.Related Eq u) : u = t := by
  have hcomponents : u.components = t.components := by
    refine Array.ext h.size fun i hi hi' => ?_
    have := h.components i
    rw [Array.getD_eq_getD_getElem?, Array.getD_eq_getD_getElem?, Array.getElem?_eq_getElem hi,
      Array.getElem?_eq_getElem hi'] at this
    exact this.symm
  obtain ⟨labels, dimension, components, _, _, _⟩ := t
  obtain ⟨labels', dimension', components', _, _, _⟩ := u
  obtain rfl : labels' = labels := h.labels
  obtain rfl : dimension' = dimension := h.dimension
  obtain rfl : components' = components := hcomponents
  rfl

omit [IsLinearRelation S] in
theorem Related.eq_of_same {P : Scalar → Prop} (h : t.Related (Same P) u) : u = t :=
  (h.mono fun _ _ hab => hab.1).ext

theorem IsPolynomial.maps (h : t.IsPolynomial) : t.Related (Maps (AlgHom.id ℚ Poly)) t :=
  (related_same (P := Scalar.IsPolynomial).mpr h).mono fun _ _ ⟨he, hp⟩ => he ▸ Scalar.maps_id hp

theorem Related.isPolynomial (h : t.Related (Maps φ) u) : u.IsPolynomial := by
  refine (related_same (P := Scalar.IsPolynomial)).mp ⟨rfl, rfl, fun i => ⟨rfl, (h.components i).right⟩⟩

/-! ## Componentwise operations -/

theorem Related.add (h : t.Related S u) (h' : t'.Related S u') :
    Agree (Related S) (t.add t') (u.add u') := by
  unfold Tensor.add
  refine (h.checkDimensions h').bind fun _ _ _ => Agree.ite ?_ ?_ (Agree.error _ _)
  · rw [h.labels, h'.labels]
  · exact Agree.ok (tabulate_related h.labels _ _ h.dimension fun ν =>
      IsLinearRelation.add (h.lookup ν) (h'.lookup ν))

theorem Related.neg (h : t.Related S u) : t.neg.Related S u.neg :=
  h.map fun _ _ h => IsLinearRelation.neg h

theorem Related.sub (h : t.Related S u) (h' : t'.Related S u') :
    Agree (Related S) (t.sub t') (u.sub u') := h.add h'.neg

theorem Related.scale (h : t.Related S u) (q : ℚ) :
    (t.scale (.rational q)).Related S (u.scale (.rational q)) :=
  h.map fun _ _ h => IsLinearRelation.scale q h

theorem Related.expand (h : t.Related S u) : t.expand.Related S u.expand :=
  h.map fun _ _ h => IsLinearRelation.expand h

/-- What is expanded stays as it is when it is expanded again. -/
theorem IsPolynomial.expand_expand (h : t.IsPolynomial) : t.expand.expand = t.expand := by
  have hrelated : t.expand.Related (Maps (AlgHom.id ℚ Poly)) t := by
    refine h.maps.map_left fun a b hab => ?_
    have hexpand := Scalar.expand_denotes hab.left
    exact ⟨hexpand.isPolynomial, hab.right, hab.poly_eq.trans (congrArg _ hexpand.poly_eq.symm)⟩
  have hsame : t.expand.expand.Related Eq t.expand := hrelated.map fun _ _ hab => hab.expand_eq
  exact hsame.ext.symm

/-! ## Products -/

theorem foldl_add_related : ∀ {xs ys : List Scalar} {a b : Scalar}, S a b →
    List.Forall₂ S xs ys →
    S (xs.foldl (· + ·) a) (ys.foldl (· + ·) b)
  | [], [], _, _, h, _ => h
  | x :: xs, y :: ys, a, b, h, hs => by
    obtain ⟨hxy, hs⟩ := List.forall₂_cons.mp hs
    rw [List.foldl_cons, List.foldl_cons]
    exact foldl_add_related (IsLinearRelation.add h hxy) hs

theorem addUp_related {xs ys : List Scalar} (h : List.Forall₂ S xs ys) :
    S (addUp xs) (addUp ys) := by
  cases h with
  | nil => exact IsLinearRelation.zero
  | cons hxy hs => exact foldl_add_related hxy hs

theorem sumDiagonal_related {f g : List Nat → Scalar} (h : ∀ index, S (f index) (g index))
    (dimension first second : Nat) (index : List Nat) :
    S (sumDiagonal dimension first second f index) (sumDiagonal dimension first second g index) :=
  addUp_related (forall₂_map_related (fun _ => h _) _)

/-- Contractions of related components leave the same labels and related components, or both fail. -/
theorem contractRepeated_related (dimension : Nat) (labels : List String) {f g : List Nat → Scalar}
    (h : ∀ index, S (f index) (g index)) :
    Agree (fun x y => y.1 = x.1 ∧ ∀ index, S (x.2 index) (y.2 index))
      (contractRepeated dimension labels f) (contractRepeated dimension labels g) := by
  induction hn : labels.length using Nat.strongRecOn generalizing labels f g with
  | ind n ih =>
    subst hn
    cases hfound : repeated? labels with
    | none =>
      rw [contractRepeated_of_none hfound, contractRepeated_of_none hfound]
      exact Agree.ok ⟨rfl, h⟩
    | some l =>
      rw [contractRepeated_of_some hfound, contractRepeated_of_some hfound]
      refine Agree.ite Iff.rfl (Agree.error _ _) ?_
      exact ih _ (length_dropPair_lt (List.mem_of_find?_eq_some hfound)) (dropPair labels l)
        (fun index => sumDiagonal_related h _ _ _ index) rfl

theorem build_related (labels : List String) (dimension : Int) {f g : List Nat → Scalar}
    (h : ∀ index, S (f index) (g index)) :
    Agree (Related S) (build labels dimension f) (build labels dimension g) := by
  unfold build
  refine Agree.bind (R := Eq) (Agree.self fun _ _ => rfl) fun d e hde => ?_
  subst hde
  split
  · exact Agree.ok (ofFunction_related rfl _ _ rfl h)
  · exact Agree.error _ _

omit [IsLinearRelation S] in
theorem Related.outer [IsRingRelation S] (h : t.Related S u) (h' : t'.Related S u') (index : List Nat) :
    S (t.outer t' index) (u.outer u' index) := by
  unfold Tensor.outer rank
  rw [h.labels]
  exact IsRingRelation.mul (h.component _) (h'.component _)

omit [IsLinearRelation S] in
theorem Related.product [IsRingRelation S] (h : t.Related S u) (h' : t'.Related S u') :
    Agree (Related S) (t.product t') (u.product u') := by
  unfold Tensor.product
  refine ((h.checkDimensions h').mapError _ _).bind fun _ _ _ => ?_
  simp only [h.labels, h'.labels, h.dimension, h'.dimension]
  split
  · exact Agree.error _ _
  · refine (contractRepeated_related _ _ (h.outer h')).bind ?_
    rintro ⟨labels, f⟩ ⟨labels', g⟩ ⟨hlabels, hfg⟩
    obtain rfl : labels' = labels := hlabels
    exact build_related _ _ hfg

end Tensor

end TensorEquations
