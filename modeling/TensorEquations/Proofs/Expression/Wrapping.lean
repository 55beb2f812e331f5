import TensorEquations.Proofs.Expression.Commutation
import TensorEquations.Proofs.Expression.Vanishing
import TensorEquations.Proofs.Tensor.Matching

/-!
# Scalars as tensors without axes

A scalar and the tensor without axes that it is take different ways through the operations: scalars are multiplied
as scalars, a tensor is scaled by a scalar, and two tensors have an outer product.

* `Tensor.product_scalar`, `Tensor.scalar_product` — the product with a tensor without axes is the multiple.
* `Substitution.homogeneous_congr` — a system depends on the polynomials of its expressions only.
* `Value.Lifted` — values of which the second may have tensors without axes in the place of scalars.
* `Value.Lifted.isTensorial`, `Value.Lifted.mul`, `Builtin.apply_lifted` — **operations and functions on such values
  both fail or have such values.**
* `Quantity.Wraps`, `Value.Interchangeable` — a scalar wrapped as a tensor; values that differ, expanded, in nothing
  else.
* `Expression.evaluate_wraps` — **scalars and tensors without axes are interchangeable.**
-/

namespace TensorEquations

open Scalar (IsLinearRelation Maps SamePolynomial)

/-! ## Tensors without axes -/

namespace Tensor

variable {a b t : Tensor}

theorem map_scalar (f : Scalar → Scalar) (x : Scalar) : (Tensor.scalar x).map f = Tensor.scalar (f x) := by
  simp [Tensor.map, Tensor.scalar]

/-- A product without a sum, one of the factors having no axes. -/
theorem product_eq_map {g : Scalar → Scalar} (hempty : a.labels = [] ∨ b.labels = [])
    (hlabels : freeLabels a.labels b.labels = t.labels) (hrange : axisRange a b = t.dimension)
    (hlookup : ∀ ν, a.lookup ν * b.lookup ν = g (t.lookup ν)) : a.product b = .ok (t.map g) := by
  have hshared : sharedLabels a.labels b.labels = [] := by
    rcases hempty with h | h <;> simp [sharedLabels, h]
  have hfit : ¬ (a.labels ≠ [] ∧ b.labels ≠ [] ∧ a.dimension ≠ b.dimension) := by
    rintro ⟨ha, hb, -⟩
    exact hempty.elim ha hb
  have hdimension : (contraction a b).dimension = t.dimension := by
    show (if freeLabels a.labels b.labels = [] then 0 else axisRange a b) = t.dimension
    rw [hlabels, hrange, t.range_eq]
  have hmatched : (t.map g).Matched Eq (contraction a b) := by
    refine ⟨.of_eq hlabels.symm, hdimension.symm, fun ν hν => ?_⟩
    have hν' : (contraction a b).InRange ν := fun l hl => hdimension ▸ hν l (hlabels ▸ hl)
    have hνt : t.InRange ν := hν
    rw [lookup_contraction hν', lookup_map hνt, hshared]
    exact (hlookup ν).symm
  rw [product_eq, if_neg hfit, if_neg fun h => h.1 hshared]
  exact congrArg _ (hmatched.related hlabels).ext

/-- **The product of a tensor and one without axes is the multiple.** -/
theorem product_scalar (t : Tensor) (x : Scalar) : t.product (Tensor.scalar x) = .ok (t.scale x) :=
  product_eq_map (.inr rfl) (by simp [freeLabels, Tensor.scalar]) t.range_eq fun _ => rfl

/-- With the factors exchanged the scalar stands in front. -/
theorem scalar_product (x : Scalar) (t : Tensor) : (Tensor.scalar x).product t = .ok (t.map (x * ·)) :=
  product_eq_map (.inl rfl) (by simp [freeLabels, Tensor.scalar]) rfl fun _ => rfl

end Tensor

/-! ## Systems -/

namespace Substitution

theorem homogeneous_congr {xs ys : List Scalar} (h : List.Forall₂ SamePolynomial xs ys) :
    homogeneous xs = homogeneous ys := by
  have hrow : ∀ {a b : Scalar}, SamePolynomial a b → LinearRow.ofScalar a none = LinearRow.ofScalar b none := by
    intro a b hab
    unfold LinearRow.ofScalar
    rw [hab.expand_eq]
  have hrows : xs.mapM (fun s => LinearRow.ofScalar s none) = ys.mapM fun s => LinearRow.ofScalar s none := by
    induction h with
    | nil => rfl
    | cons hab _ ih => rw [List.mapM_cons, List.mapM_cons, hrow hab, ih]
  unfold homogeneous
  rw [hrows]

end Substitution

/-! ## Values -/

/-- The same product with the factors exchanged. -/
theorem Scalar.Maps.mul_swap {a a' b b' : Scalar} (ha : SamePolynomial a a') (hb : SamePolynomial b b') :
    SamePolynomial (a * b) (b' * a') := by
  refine maps_of_denotes (ha.denotes_left.mul hb.denotes_left) ?_
  rw [map_mul, mul_comm]
  exact hb.denotes_right.mul ha.denotes_right

/-- Values of the same polynomials; a tensor without axes may stand for a scalar. -/
inductive Value.Lifted : Value → Value → Prop
  | scalar {x y : Scalar} (h : SamePolynomial x y) : Lifted (.scalar x) (.scalar y)
  | wrapped {x y : Scalar} (h : SamePolynomial x y) : Lifted (.scalar x) (.tensor (Tensor.scalar y))
  | tensor {t u : Tensor} (h : t.Related SamePolynomial u) : Lifted (.tensor t) (.tensor u)
  | substitution (s : Substitution) : Lifted (.substitution s) (.substitution s)
  | labels (ls : List String) : Lifted (.labels ls) (.labels ls)

namespace Value.Lifted

variable {a a' b b' : Value}

theorem asTensor (h : Lifted a b) (context : String) :
    Agree (Tensor.Related SamePolynomial) (a.asTensor context) (b.asTensor context) := by
  cases h with
  | scalar h | wrapped h => exact Agree.ok (Tensor.scalar_related h)
  | tensor h => exact Agree.ok h
  | substitution _ | labels _ => exact Agree.error _ _

theorem asLabels (h : Lifted a b) (context : String) :
    Agree Eq (a.asLabels context) (b.asLabels context) := by
  cases h with
  | labels ls => exact Agree.ok rfl
  | scalar _ | wrapped _ | tensor _ | substitution _ => exact Agree.error _ _

theorem ofShaped {r r' : Except ShapeError Tensor} (h : Agree (Tensor.Related SamePolynomial) r r') :
    Agree Lifted (Value.ofShaped r) (Value.ofShaped r') := (h.map fun _ _ => Lifted.tensor).mapError _ _

/-- A function applied to a scalar, and to the component of the tensor that stands for it. -/
theorem wrapped_map {f g : Scalar → Scalar} {x y : Scalar} (h : SamePolynomial (f x) (g y)) :
    Lifted (.scalar (f x)) (.tensor ((Tensor.scalar y).map g)) := by
  rw [Tensor.map_scalar]
  exact .wrapped h

theorem neg (h : Lifted a b) : Agree Lifted a.neg b.neg := by
  cases h with
  | scalar h => exact Agree.ok (.scalar (IsLinearRelation.neg h))
  | wrapped h => exact Agree.ok (wrapped_map (IsLinearRelation.neg h))
  | tensor h => exact Agree.ok (.tensor h.neg)
  | substitution _ | labels _ => exact Agree.error _ _

theorem expand (h : Lifted a b) : Agree Lifted (Builtin.expand.apply [a]) (Builtin.expand.apply [b]) := by
  cases h with
  | scalar h => exact Agree.ok (.scalar (IsLinearRelation.expand h))
  | wrapped h => exact Agree.ok (wrapped_map (IsLinearRelation.expand h))
  | tensor h => exact Agree.ok (.tensor h.expand)
  | substitution _ | labels _ => exact Agree.error _ _

theorem add (h : Lifted a b) (h' : Lifted a' b') : Agree Lifted (a.add a') (b.add b') := by
  cases h with
  | scalar h =>
      cases h' with
      | scalar h' => exact Agree.ok (.scalar (IsLinearRelation.add h h'))
      | wrapped h' => exact Agree.ok (.wrapped (IsLinearRelation.add h h'))
      | tensor h' => exact ofShaped ((Tensor.scalar_related h).add h')
      | substitution _ | labels _ => exact Agree.error _ _
  | wrapped h =>
      cases h' with
      | scalar h' | wrapped h' => exact Agree.ok (.wrapped (IsLinearRelation.add h h'))
      | tensor h' => exact ofShaped ((Tensor.scalar_related h).add h')
      | substitution _ | labels _ => exact Agree.error _ _
  | tensor h =>
      cases h' with
      | scalar h' | wrapped h' => exact ofShaped (h.add (Tensor.scalar_related h'))
      | tensor h' => exact ofShaped (h.add h')
      | substitution _ | labels _ => exact Agree.error _ _
  | substitution _ | labels _ => exact Agree.error _ _

theorem isTensorial : IsTensorial SamePolynomial Lifted where
  rational q := .scalar (IsLinearRelation.rational q)
  tensor := .tensor
  labels := .labels
  asTensor := asTensor
  asLabels := asLabels
  neg := neg
  add := add
  expand := expand

/-- **Products.** A scalar multiplies the components from the right; as a tensor without axes in front it multiplies
them from the left. -/
theorem mul (h : Lifted a b) (h' : Lifted a' b') : Agree Lifted (a.mul a') (b.mul b') := by
  cases h with
  | scalar h =>
      cases h' with
      | scalar h' => exact Agree.ok (.scalar (h.mul h'))
      | wrapped h' => exact Agree.ok (wrapped_map (h.mul_swap h'))
      | tensor h' => exact Agree.ok (.tensor (Mapped.scale h' h))
      | substitution _ | labels _ => exact Agree.error _ _
  | @wrapped x y h =>
      cases h' with
      | scalar h' => exact Agree.ok (wrapped_map (h.mul h'))
      | @wrapped x' y' h' =>
          show Agree Lifted _ (ofTensor ((Tensor.scalar y).product (Tensor.scalar y')))
          rw [Tensor.product_scalar]
          exact Agree.ok (wrapped_map (h.mul h'))
      | @tensor t u h' =>
          show Agree Lifted (.ok (.tensor (t.scale x))) (ofTensor ((Tensor.scalar y).product u))
          rw [Tensor.scalar_product]
          exact Agree.ok (.tensor (h'.map fun _ _ hab => hab.mul_swap h))
      | substitution _ | labels _ => exact Agree.error _ _
  | @tensor t u h =>
      cases h' with
      | scalar h' => exact Agree.ok (.tensor (Mapped.scale h h'))
      | @wrapped x y h' =>
          show Agree Lifted (.ok (.tensor (t.scale x))) (ofTensor (u.product (Tensor.scalar y)))
          rw [Tensor.product_scalar]
          exact Agree.ok (.tensor (Mapped.scale h h'))
      | tensor h' => exact ((h.product h').map fun _ _ => Lifted.tensor).mapError _ _
      | substitution _ | labels _ => exact Agree.error _ _
  | substitution _ | labels _ => cases h' <;> exact Agree.error _ _

theorem components (h : Lifted a b) : List.Forall₂ SamePolynomial a.components b.components := by
  cases h with
  | scalar h | wrapped h => exact .cons h .nil
  | tensor h => exact h.toList
  | substitution _ | labels _ => exact .nil

/-- The same equations are solved. -/
theorem solveHomogeneous_eq (h : Lifted a b) : Builtin.solveHomogeneous a = Builtin.solveHomogeneous b := by
  have hsystem := Substitution.homogeneous_congr h.components
  cases h with
  | scalar _ | wrapped _ | tensor _ =>
      rw [Builtin.solveHomogeneous_quantity, Builtin.solveHomogeneous_quantity, hsystem]
  | substitution _ | labels _ => rfl

end Value.Lifted

/-! ## Functions and expressions -/

/-- Everything that asks for no scalar in the place of a tensor without axes: no quotients, no multiples by a factor,
and no substitutions. -/
def Fragment.wrappable : Fragment where
  operation op _ _ := op != .div
  builtin f :=
    match f with
    | .scale | .substitute | .mergeSubstitutions => false
    | _ => true

namespace Builtin

theorem exists_substitution {v w : Value} (h : solveHomogeneous v = .ok w) : ∃ s, w = .substitution s := by
  cases v with
  | quantity q =>
      rw [solveHomogeneous_quantity] at h
      obtain ⟨s, -, rfl⟩ := map_eq_ok (mapError_eq_ok h)
      exact ⟨s, rfl⟩
  | substitution _ | labels _ | nothing | integer _ | truth _ | double _ | list _ => cases h

theorem solveHomogeneous_lifted {v w : Value} (h : v.Lifted w) :
    Agree Value.Lifted (solveHomogeneous v) (solveHomogeneous w) := by
  rw [h.solveHomogeneous_eq]
  refine Agree.self fun a ha => ?_
  obtain ⟨s, rfl⟩ := exists_substitution ha
  exact .substitution s

theorem apply_lifted {f : Builtin} (hf : Fragment.wrappable.builtin f = true) {vs ws : List Value}
    (h : List.Forall₂ Value.Lifted vs ws) : Agree Value.Lifted (f.apply vs) (f.apply ws) := by
  cases f with
  | multiply => exact Value.combine_agree (fun _ _ _ _ => Value.Lifted.mul) "Multiply" h
  | homogeneousSystem =>
      match vs, ws, h with
      | [_], [_], .cons hv .nil => exact solveHomogeneous_lifted hv
      | [], [], _ => exact Agree.error _ _
      | _ :: _ :: _, _ :: _ :: _, _ => exact Agree.error _ _
  | add | subtract | renameIndices | symmetrize | antiSymmetrize | blockSymmetrize
  | exchangeSymmetrize | expand => exact apply_tensorial Value.Lifted.isTensorial rfl h
  | scale | substitute | mergeSubstitutions => cases hf

end Builtin

/-- **Values under bindings of which the second may have tensors without axes for scalars.** -/
theorem Expression.evaluate_lifted {vs ws : Bindings} (h : Bindings.Paired Value.Lifted vs ws) {e : Expression}
    (he : e.isIn .wrappable = true) : Agree Value.Lifted (e.evaluate vs) (e.evaluate ws) := by
  have hR := Value.Lifted.isTensorial
  refine evaluate_paired hR h ?_ (fun _ hf _ _ hab => Builtin.apply_lifted hf hab) e he
  intro op l r hin a a' b b' ⟨_, _, ha⟩ ⟨_, _, hb⟩
  cases op with
  | add => exact hR.add ha hb
  | sub => exact hR.sub ha hb
  | mul => exact ha.mul hb
  | div => cases hin

/-! ## Wrapped scalars -/

/-- The same quantity, or a scalar and the tensor without axes that it is. -/
inductive Quantity.Wraps : Quantity → Quantity → Prop
  | same (q : Quantity) : Wraps q q
  | wrapped (s : Scalar) : Wraps (.scalar s) (.tensor (Tensor.scalar s))

/-- Quantities that expand to the same one, or to a scalar and the tensor without axes that it is; substitutions and
lists of labels as they are. -/
inductive Value.Interchangeable : Value → Value → Prop
  | quantity {p q : Quantity} (h : p.expand.Wraps q.expand) : Interchangeable (.quantity p) (.quantity q)
  | substitution (s : Substitution) : Interchangeable (.substitution s) (.substitution s)
  | labels (ls : List String) : Interchangeable (.labels ls) (.labels ls)

theorem Quantity.Wraps.lifted {p q : Quantity} (h : p.Wraps q) (hp : p.IsPolynomial) :
    Value.Lifted (.quantity p) (.quantity q) := by
  cases h with
  | same =>
      cases p with
      | scalar x => exact .scalar (Scalar.maps_id (hp x List.mem_cons_self))
      | tensor t => exact .tensor (Tensor.IsPolynomial.maps hp)
  | wrapped x => exact .wrapped (Scalar.maps_id (hp x List.mem_cons_self))

theorem Value.Lifted.interchangeable {v w : Value} (h : v.Lifted w) : v.Interchangeable w := by
  cases h with
  | @scalar x y h =>
      refine .quantity ?_
      rw [Quantity.expand, Quantity.map, Quantity.map, h.expand_eq]
      exact .same _
  | @wrapped x y h =>
      refine .quantity ?_
      rw [Quantity.expand, Quantity.map, Quantity.map, Tensor.map_scalar, h.expand_eq]
      exact .wrapped _
  | @tensor t u h =>
      have hexpand : t.expand.Related Eq u.expand := h.map fun _ _ hab => hab.expand_eq
      refine .quantity ?_
      rw [Quantity.expand, Quantity.map, Quantity.map, show u.map Scalar.expand = t.map Scalar.expand from hexpand.ext]
      exact .same _
  | substitution s => exact .substitution s
  | labels ls => exact .labels ls

theorem Bindings.paired_of_wraps : ∀ {qs qs' : List (String × Quantity)}, (∀ b ∈ qs, b.2.IsPolynomial) →
    List.Forall₂ (fun b c => b.1 = c.1 ∧ b.2.Wraps c.2) qs qs' →
    Bindings.Paired Value.Lifted (.ofQuantities qs) (.ofQuantities qs')
  | [], [], _, _ => .nil
  | b :: qs, c :: qs', hqs, h => by
    obtain ⟨⟨hname, hwraps⟩, hs⟩ := List.forall₂_cons.mp h
    rw [List.forall_mem_cons] at hqs
    exact .cons ⟨hname, hwraps.lifted hqs.1⟩ (paired_of_wraps hqs.2 hs)

/-- **Scalars and tensors without axes are interchangeable.** If any of the scalars among polynomial quantities are
wrapped as tensors without axes, an expression without quotients, multiples by a factor and substitutions has a value
exactly if it has one for the scalars, and expanded it is the same value or that one wrapped. Setting both values to
zero has one outcome. -/
theorem Expression.evaluate_wraps {qs qs' : List (String × Quantity)} (hqs : ∀ b ∈ qs, b.2.IsPolynomial)
    (hwraps : List.Forall₂ (fun b c => b.1 = c.1 ∧ b.2.Wraps c.2) qs qs') {e : Expression}
    (he : e.isIn .wrappable = true) :
    Agree (fun v w => v.Interchangeable w ∧ Builtin.homogeneousSystem.call [v] = Builtin.homogeneousSystem.call [w])
      (e.evaluate (.ofQuantities qs)) (e.evaluate (.ofQuantities qs')) :=
  (evaluate_lifted (Bindings.paired_of_wraps hqs hwraps) he).mono fun _ _ h =>
    ⟨h.interchangeable, h.solveHomogeneous_eq⟩

/-- A quantity `f` and a tensor `v`. -/
def factorAndTensor (f : Quantity) (v : Tensor) : List (String × Quantity) := [("f", f), ("v", .tensor v)]

/-- The expression `f * v - v * 2`. -/
def scaledDifference : Expression :=
  .binary .sub (.binary .mul (.name "f" ⟨1, 1⟩) (.name "v" ⟨1, 5⟩))
    (.binary .mul (.name "v" ⟨1, 9⟩) (.number ⟨['2'], none⟩))

/-- A multiple of a vector, and the outer product of a tensor without axes and the vector. -/
theorem Expression.evaluate_wraps_vector :
    let x : Scalar := .symbol "x" + 1
    let vector := Tensor.symbolic ["i"] (by decide) 2 "v"
    ∃ v w, scaledDifference.evaluate (.ofQuantities (factorAndTensor (.scalar x) vector)) = .ok v ∧
      scaledDifference.evaluate (.ofQuantities (factorAndTensor (.tensor (Tensor.scalar x)) vector)) = .ok w ∧
      v.Interchangeable w ∧ Builtin.homogeneousSystem.call [v] = Builtin.homogeneousSystem.call [w] := by
  intro x vector
  have hqs : ∀ b ∈ factorAndTensor (.scalar x) vector, b.2.IsPolynomial := by
    unfold Quantity.IsPolynomial
    decide +kernel
  have hwraps : List.Forall₂ (fun b c => b.1 = c.1 ∧ b.2.Wraps c.2) (factorAndTensor (.scalar x) vector)
      (factorAndTensor (.tensor (Tensor.scalar x)) vector) :=
    .cons ⟨rfl, .wrapped x⟩ (.cons ⟨rfl, .same _⟩ .nil)
  have hagree := Expression.evaluate_wraps hqs hwraps (e := scaledDifference) rfl
  have hvalue : (scaledDifference.evaluate (.ofQuantities (factorAndTensor (.scalar x) vector))).isOk = true := by
    decide +kernel
  cases hv : scaledDifference.evaluate (.ofQuantities (factorAndTensor (.scalar x) vector)) with
  | error error =>
      rw [hv] at hvalue
      cases hvalue
  | ok v =>
      obtain ⟨w, hw, hboth⟩ := hagree.exists_ok hv
      exact ⟨v, w, rfl, hw, hboth⟩

end TensorEquations
