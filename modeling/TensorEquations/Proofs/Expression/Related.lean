import TensorEquations.Expression.Interpreter
import TensorEquations.Proofs.Substitution.Homomorphism
import TensorEquations.Proofs.Tensor.Symmetry

/-!
# Operations on related values

* `Value.Related` — equal rational numbers, related tensors, equal labels, and equal substitutions of
  polynomials for symbols.
* `Value.Related.add`, `Value.Related.mul`, `Value.Related.div` and the others — **operations on related
  values both fail or have related values.**
* `Value.IsTensorial` — relations of values that sums, signs and expansion keep.
* `Builtin.isLinear`, `Builtin.isPolynomial` — the functions that linear operations, or sums and products,
  are enough for.
* `Builtin.apply_tensorial`, `Builtin.apply_related_linear`, `Builtin.apply_related` — **their calls on
  related values both fail or have related values.**
-/

namespace TensorEquations

open Scalar (IsLinearRelation IsRingRelation)

variable {S : Scalar → Scalar → Prop}

/-- Values that stand for each other. The only scalars among values are rational numbers. -/
inductive Value.Related (S : Scalar → Scalar → Prop) : Value → Value → Prop
  | rational (q : ℚ) : Related S (.scalar (.rational q)) (.scalar (.rational q))
  | tensor {t u : Tensor} (h : t.Related S u) : Related S (.tensor t) (.tensor u)
  | substitution {s : Substitution} (h : s.IsPolynomial) : Related S (.substitution s) (.substitution s)
  | labels (ls : List String) : Related S (.labels ls) (.labels ls)
  | nothing : Related S .nothing .nothing

namespace Value.Related

variable {a a' b b' : Value}

theorem eq_of_scalar {s : Scalar} (h : Related S (.scalar s) b) : b = .scalar s := by
  cases h
  rfl

/-! ## Operands -/

section Linear

variable [IsLinearRelation S]

theorem asTensor (h : Related S a b) (context : String) :
    Agree (Tensor.Related S) (a.asTensor context) (b.asTensor context) := by
  cases h with
  | rational q => exact Agree.ok (Tensor.scalar_related (IsLinearRelation.rational q))
  | tensor h => exact Agree.ok h
  | substitution _ => exact Agree.error _ _
  | labels ls => exact Agree.error _ _
  | nothing => exact Agree.error _ _

omit [IsLinearRelation S] in
theorem asLabels (h : Related S a b) (context : String) :
    Agree Eq (a.asLabels context) (b.asLabels context) := by
  cases h with
  | labels ls => exact Agree.ok rfl
  | rational q => exact Agree.error _ _
  | tensor h => exact Agree.error _ _
  | substitution _ => exact Agree.error _ _
  | nothing => exact Agree.error _ _

omit [IsLinearRelation S] in
theorem asSubstitution (h : Related S a b) (context : String) :
    Agree (fun s s' => s = s' ∧ s.IsPolynomial) (a.asSubstitution context)
      (b.asSubstitution context) := by
  cases h with
  | substitution hs => exact Agree.ok ⟨rfl, hs⟩
  | rational q => exact Agree.error _ _
  | tensor h => exact Agree.error _ _
  | labels ls => exact Agree.error _ _
  | nothing => exact Agree.error _ _

omit [IsLinearRelation S] in
theorem ofShaped {x y : Except ShapeError Tensor} (h : Agree (Tensor.Related S) x y) :
    Agree (Related S) (Value.ofShaped x) (Value.ofShaped y) :=
  (h.map fun _ _ => Related.tensor).mapError _ _

omit [IsLinearRelation S] in
theorem ofTensor {x y : Except TensorError Tensor} (h : Agree (Tensor.Related S) x y) :
    Agree (Related S) (Value.ofTensor x) (Value.ofTensor y) :=
  (h.map fun _ _ => Related.tensor).mapError _ _

/-! ## Operations -/

theorem add (h : Related S a b) (h' : Related S a' b') : Agree (Related S) (a.add a') (b.add b') := by
  have hscalar : ∀ q : ℚ, (Tensor.scalar (.rational q)).Related S (Tensor.scalar (.rational q)) :=
    fun q => Tensor.scalar_related (IsLinearRelation.rational q)
  cases h with
  | rational p =>
      cases h' with
      | rational q =>
          show Agree _ (.ok (Value.scalar (.rational p + .rational q))) (.ok _)
          rw [Scalar.rational_add]
          exact Agree.ok (.rational (p + q))
      | tensor h' => exact ofShaped ((hscalar p).add h')
      | substitution _ => exact Agree.error _ _
      | labels ls => exact Agree.error _ _
      | nothing => exact Agree.error _ _
  | tensor h =>
      cases h' with
      | rational q => exact ofShaped (h.add (hscalar q))
      | tensor h' => exact ofShaped (h.add h')
      | substitution _ => exact Agree.error _ _
      | labels ls => exact Agree.error _ _
      | nothing => exact Agree.error _ _
  | substitution _ => exact Agree.error _ _
  | labels ls => exact Agree.error _ _
  | nothing => exact Agree.error _ _

theorem neg (h : Related S a b) : Agree (Related S) a.neg b.neg := by
  cases h with
  | rational q =>
      show Agree _ (.ok (Value.scalar (-.rational q))) (.ok _)
      rw [Scalar.rational_neg]
      exact Agree.ok (.rational (-q))
  | tensor h => exact Agree.ok (.tensor h.neg)
  | substitution _ => exact Agree.error _ _
  | labels ls => exact Agree.error _ _
  | nothing => exact Agree.error _ _

theorem sub (h : Related S a b) (h' : Related S a' b') : Agree (Related S) (a.sub a') (b.sub b') :=
  h'.neg.bind fun _ _ hn => h.add hn

/-- A rational multiple. -/
theorem mul_rational (h : Related S a b) (q : ℚ) :
    Agree (Related S) (a.mul (.scalar (.rational q))) (b.mul (.scalar (.rational q))) := by
  cases h with
  | rational p =>
      show Agree _ (.ok (Value.scalar (.rational p * .rational q))) (.ok _)
      rw [Scalar.rational_mul]
      exact Agree.ok (.rational (p * q))
  | tensor h => exact Agree.ok (.tensor (h.scale q))
  | substitution _ => exact Agree.error _ _
  | labels ls => exact Agree.error _ _
  | nothing => exact Agree.error _ _

theorem rational_mul (p : ℚ) (h : Related S a b) :
    Agree (Related S) ((Value.scalar (.rational p)).mul a) ((Value.scalar (.rational p)).mul b) := by
  cases h with
  | rational q => exact mul_rational (.rational p) q
  | tensor h => exact Agree.ok (.tensor (h.scale p))
  | substitution _ => exact Agree.error _ _
  | labels ls => exact Agree.error _ _
  | nothing => exact Agree.error _ _

theorem div (h : Related S a b) (h' : Related S a' b') : Agree (Related S) (a.div a') (b.div b') := by
  cases h' with
  | rational q =>
      by_cases hq : q = 0
      · subst hq
        exact Agree.error _ _
      · refine Agree.ite Iff.rfl (Agree.error _ _) ?_
        rw [Scalar.rational_inv hq]
        exact h.mul_rational _
  | tensor h' => exact Agree.error _ _
  | substitution _ => exact Agree.error _ _
  | labels ls => exact Agree.error _ _
  | nothing => exact Agree.error _ _

end Linear

theorem mul [IsRingRelation S] (h : Related S a b) (h' : Related S a' b') :
    Agree (Related S) (a.mul a') (b.mul b') := by
  cases h' with
  | rational q => exact h.mul_rational q
  | tensor h' =>
      cases h with
      | rational p => exact rational_mul p (.tensor h')
      | tensor h => exact ofTensor (h.product h')
      | substitution _ => exact Agree.error _ _
      | labels ls => exact Agree.error _ _
      | nothing => exact Agree.error _ _
  | substitution _ => cases h <;> exact Agree.error _ _
  | labels ls => cases h <;> exact Agree.error _ _
  | nothing => cases h <;> exact Agree.error _ _

theorem expand [IsLinearRelation S] (h : Related S a b) :
    Agree (Related S) (Builtin.expand.apply [a]) (Builtin.expand.apply [b]) := by
  cases h with
  | rational q =>
      show Agree _ (.ok (Value.scalar (Scalar.rational q).expand))
        (.ok (Value.scalar (Scalar.rational q).expand))
      rw [Scalar.rational_expand]
      exact Agree.ok (.rational q)
  | tensor ht => exact Agree.ok (.tensor ht.expand)
  | substitution _ => exact Agree.error _ _
  | labels ls => exact Agree.error _ _
  | nothing => exact Agree.error _ _

end Value.Related

/-! ## Relations of values -/

namespace Value

/-- A relation of values that linear operations keep; `S` relates the components of tensors. -/
structure IsTensorial (S : Scalar → Scalar → Prop) (R : Value → Value → Prop) : Prop where
  rational : ∀ q : ℚ, R (.scalar (.rational q)) (.scalar (.rational q))
  tensor : ∀ {t u : Tensor}, t.Related S u → R (.tensor t) (.tensor u)
  labels : ∀ ls : List String, R (.labels ls) (.labels ls)
  asTensor : ∀ {a b : Value}, R a b → ∀ context : String,
    Agree (Tensor.Related S) (a.asTensor context) (b.asTensor context)
  asLabels : ∀ {a b : Value}, R a b → ∀ context : String,
    Agree Eq (a.asLabels context) (b.asLabels context)
  neg : ∀ {a b : Value}, R a b → Agree R a.neg b.neg
  add : ∀ {a b a' b' : Value}, R a b → R a' b' → Agree R (a.add a') (b.add b')
  expand : ∀ {a b : Value}, R a b → Agree R (Builtin.expand.apply [a]) (Builtin.expand.apply [b])

variable {R : Value → Value → Prop} {a a' b b' : Value}

theorem IsTensorial.ofShaped (hR : IsTensorial S R) {x y : Except ShapeError Tensor}
    (h : Agree (Tensor.Related S) x y) : Agree R (Value.ofShaped x) (Value.ofShaped y) :=
  (h.map fun _ _ => hR.tensor).mapError _ _

theorem IsTensorial.sub (hR : IsTensorial S R) (h : R a b) (h' : R a' b') :
    Agree R (a.sub a') (b.sub b') :=
  (hR.neg h').bind fun _ _ hn => hR.add h hn

theorem IsTensorial.allLabels (hR : IsTensorial S R) {vs ws : List Value} (h : List.Forall₂ R vs ws)
    (context : String) : Agree Eq (vs.mapM fun v => v.asLabels context) (ws.mapM fun v => v.asLabels context) := by
  rw [← List.forall₂_eq_eq_eq]
  have hlabels : ∀ a b, R a b → Agree Eq (a.asLabels context) (b.asLabels context) :=
    fun _ _ hab => hR.asLabels hab context
  exact Agree.mapM hlabels h

theorem Related.isTensorial [IsLinearRelation S] : IsTensorial S (Related S) where
  rational := .rational
  tensor := .tensor
  labels := .labels
  asTensor := asTensor
  asLabels := asLabels
  neg := neg
  add := add
  expand := expand

theorem combine_agree {op : Value → Value → Evaluation Value}
    (hop : ∀ a b a' b', R a b → R a' b' → Agree R (op a a') (op b b'))
    (function : String) {vs ws : List Value} (h : List.Forall₂ R vs ws) :
    Agree R (Value.combine function op vs) (Value.combine function op ws) := by
  cases h with
  | nil => exact Agree.error _ _
  | cons hv hs => exact Agree.foldlM (fun a b x y hab hxy => hop a b x y hab hxy) hs hv

end Value

/-! ## Functions -/

namespace Builtin

/-- The functions for which linear operations are enough. -/
def isLinear : Builtin → Bool
  | add | subtract | renameIndices => true
  | symmetrize | antiSymmetrize | blockSymmetrize | exchangeSymmetrize => true
  | expand => true
  | homogeneousSystem | multiply | scale | substitute | mergeSubstitutions => false

/-- The functions for which sums and products are enough. -/
def isPolynomial : Builtin → Bool
  | multiply | scale => true
  | f => f.isLinear

theorem expand_many (v w : Value) (vs : List Value) :
    expand.apply (v :: w :: vs) = .error (.evaluation (.failed "wrong number of arguments")) := by
  cases v <;> rfl

variable {R : Value → Value → Prop}

theorem apply_tensorial [IsLinearRelation S] (hR : Value.IsTensorial S R) {f : Builtin}
    (hf : f.isLinear = true) {vs ws : List Value} (h : List.Forall₂ R vs ws) :
    Agree R (f.apply vs) (f.apply ws) := by
  cases f with
  | add => exact Value.combine_agree (fun _ _ _ _ => hR.add) "Add" h
  | subtract =>
      match vs, ws, h with
      | [_, _], [_, _], .cons ha (.cons hb .nil) => exact hR.sub ha hb
      | [], [], _ => exact Agree.error _ _
      | [_], [_], _ => exact Agree.error _ _
      | _ :: _ :: _ :: _, _ :: _ :: _ :: _, _ => exact Agree.error _ _
  | renameIndices =>
      match vs, ws, h with
      | [_, _, _], [_, _, _], .cons hv (.cons ho (.cons hn .nil)) =>
        refine (hR.asTensor hv _).bind fun _ _ ht => (hR.asLabels ho _).bind fun _ _ ho => ?_
        refine (hR.asLabels hn _).bind fun _ _ hn => ?_
        subst ho hn
        exact hR.ofShaped (ht.rename _ _)
      | [], [], _ => exact Agree.error _ _
      | [_], [_], _ => exact Agree.error _ _
      | [_, _], [_, _], _ => exact Agree.error _ _
      | _ :: _ :: _ :: _ :: _, _ :: _ :: _ :: _ :: _, _ => exact Agree.error _ _
  | symmetrize =>
      match vs, ws, h with
      | [_, _], [_, _], .cons hv (.cons hl .nil) =>
        refine (hR.asTensor hv _).bind fun _ _ ht => (hR.asLabels hl _).bind fun _ _ hl => ?_
        subst hl
        exact hR.ofShaped (ht.symmetrize _ _)
      | [], [], _ => exact Agree.error _ _
      | [_], [_], _ => exact Agree.error _ _
      | _ :: _ :: _ :: _, _ :: _ :: _ :: _, _ => exact Agree.error _ _
  | antiSymmetrize =>
      match vs, ws, h with
      | [_, _], [_, _], .cons hv (.cons hl .nil) =>
        refine (hR.asTensor hv _).bind fun _ _ ht => (hR.asLabels hl _).bind fun _ _ hl => ?_
        subst hl
        exact hR.ofShaped (ht.antisymmetrize _ _)
      | [], [], _ => exact Agree.error _ _
      | [_], [_], _ => exact Agree.error _ _
      | _ :: _ :: _ :: _, _ :: _ :: _ :: _, _ => exact Agree.error _ _
  | blockSymmetrize =>
      cases h with
      | nil => exact Agree.error _ _
      | cons hv hs =>
          refine (hR.asTensor hv _).bind fun _ _ ht => ?_
          refine (hR.allLabels hs _).bind fun _ _ hb => ?_
          subst hb
          exact hR.ofShaped (ht.blockSymmetrize _ _)
  | exchangeSymmetrize =>
      match vs, ws, h with
      | [_, _], [_, _], .cons hv (.cons hl .nil) =>
        refine (hR.asTensor hv _).bind fun _ _ ht => (hR.asLabels hl _).bind fun _ _ hl => ?_
        subst hl
        exact hR.ofShaped (ht.exchangeSymmetrize _ _)
      | [], [], _ => exact Agree.error _ _
      | [_], [_], _ => exact Agree.error _ _
      | _ :: _ :: _ :: _, _ :: _ :: _ :: _, _ => exact Agree.error _ _
  | expand =>
      match vs, ws, h with
      | [_], [_], .cons hv .nil => exact hR.expand hv
      | [], [], _ => exact Agree.error _ _
      | _ :: _ :: _, _ :: _ :: _, _ =>
        rw [expand_many, expand_many]
        exact Agree.error _ _
  | homogeneousSystem | multiply | scale | substitute | mergeSubstitutions => cases hf

theorem apply_related_linear [IsLinearRelation S] {f : Builtin} (hf : f.isLinear = true)
    {vs ws : List Value} (h : List.Forall₂ (Value.Related S) vs ws) :
    Agree (Value.Related S) (f.apply vs) (f.apply ws) :=
  apply_tensorial Value.Related.isTensorial hf h

theorem apply_related [IsRingRelation S] {f : Builtin} (hf : f.isPolynomial = true)
    {vs ws : List Value} (h : List.Forall₂ (Value.Related S) vs ws) :
    Agree (Value.Related S) (f.apply vs) (f.apply ws) := by
  cases f with
  | multiply => exact Value.combine_agree (fun _ _ _ _ => Value.Related.mul) "Multiply" h
  | scale =>
      match vs, ws, h with
      | [_, _], [_, _], .cons hv (.cons hfactor .nil) =>
        cases hfactor with
        | rational q => exact (hv.asTensor _).bind fun _ _ ht => Agree.ok (.tensor (ht.scale q))
        | tensor _ => exact Agree.error _ _
        | substitution _ => exact Agree.error _ _
        | labels ls => exact Agree.error _ _
        | nothing => exact Agree.error _ _
      | [], [], _ => exact Agree.error _ _
      | [_], [_], _ => exact Agree.error _ _
      | _ :: _ :: _ :: _, _ :: _ :: _ :: _, _ => exact Agree.error _ _
  | add | subtract | renameIndices | symmetrize | antiSymmetrize | blockSymmetrize
  | exchangeSymmetrize | expand => exact apply_related_linear rfl h
  | homogeneousSystem | substitute | mergeSubstitutions => cases hf

/-- A call with a wrong number of arguments fails on both sides. -/
theorem call_agree {f : Builtin} {vs ws : List Value} (h : List.Forall₂ R vs ws)
    (ha : Agree R (f.apply vs) (f.apply ws)) : Agree R (f.call vs) (f.call ws) := by
  unfold call
  rw [h.length_eq]
  split
  · exact Agree.error _ _
  · exact ha

end Builtin

end TensorEquations
