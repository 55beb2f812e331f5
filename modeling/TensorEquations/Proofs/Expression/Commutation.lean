import Mathlib
import TensorEquations.Proofs.Expression.Evaluation

/-!
# Evaluation and substitution

Evaluating and then substituting gives the same quantity as substituting and then evaluating.

* `Expression.isClosed`, `Expression.evaluate_of_isClosed` — an expression that mentions no name has one
  value under all bindings.
* `Fragment.homomorphic` — sums, products, and divisions by expressions without names.
* `Value.Mapped` — scalars and tensors that are related component by component; unlike `Value.Related` it
  has arbitrary scalars.
* `Value.Mapped.isTensorial`, `Value.Mapped.mul`, `Value.Mapped.div` — **operations on mapped values both
  fail or have mapped values.**
* `Expression.evaluate_mapped` — **so do expressions.**
* `Substitution.Yields` — a quantity that is, expanded, what a substitution makes of another one.
* `Substitution.evaluate_commutes` — **evaluation commutes with substitutions of polynomials for symbols.**
-/

namespace TensorEquations

open Scalar (IsLinearRelation IsRingRelation Maps)

/-! ## Expressions without names -/

namespace Expression

mutual

/-- Whether an expression mentions no name. -/
def isClosed : Expression → Bool
  | .number _ => true
  | .name _ _ => false
  | .labels _ => true
  | .neg e => e.isClosed
  | .binary _ l r => l.isClosed && r.isClosed
  | .call _ _ arguments => areClosed arguments

def areClosed : List Expression → Bool
  | [] => true
  | e :: es => e.isClosed && areClosed es

end

variable {vs w : Bindings}

mutual

theorem evaluate_of_isClosed : ∀ e : Expression, e.isClosed = true → e.evaluate vs = e.evaluate w
  | .number n, _ => by rw [evaluate, evaluate]
  | .labels ls, _ => by rw [evaluate, evaluate]
  | .neg e, h => by rw [evaluate, evaluate, evaluate_of_isClosed e h]
  | .binary op l r, h => by
    rw [isClosed, Bool.and_eq_true] at h
    rw [evaluate, evaluate, evaluate_of_isClosed l h.1, evaluate_of_isClosed r h.2]
  | .call function place arguments, h => by
    rw [evaluate, evaluate, evaluateAll_of_areClosed arguments h]

theorem evaluateAll_of_areClosed : ∀ es : List Expression, areClosed es = true →
    evaluateAll vs es = evaluateAll w es
  | [], _ => by rw [evaluateAll, evaluateAll]
  | e :: es, h => by
    rw [areClosed, Bool.and_eq_true] at h
    rw [evaluateAll, evaluateAll, evaluate_of_isClosed e h.1, evaluateAll_of_areClosed es h.2]

end

/-- A scalar that an expression without names has as its value is a rational number. -/
theorem evaluate_closed_scalar {e : Expression} (h : e.isClosed = true) {x : Scalar}
    (hx : e.evaluate vs = .ok (.scalar x)) : ∃ q : ℚ, x = .rational q := by
  rw [evaluate_of_isClosed (w := []) e h] at hx
  have hempty : Bindings.IsPolynomial [] := List.Forall₂.nil
  cases e.evaluate_isPolynomial hempty hx with
  | rational q => exact ⟨q, rfl⟩

end Expression

/-- Sums, products, and quotients by expressions without names. -/
def Fragment.homomorphic : Fragment where
  operation op _ r :=
    match op with
    | .div => r.isClosed
    | _ => true
  builtin := Builtin.isPolynomial

/-! ## Mapped values -/

variable {S : Scalar → Scalar → Prop}

/-- Scalars and tensors that stand for each other component by component, and equal labels. -/
inductive Value.Mapped (S : Scalar → Scalar → Prop) : Value → Value → Prop
  | scalar {x y : Scalar} (h : S x y) : Mapped S (.scalar x) (.scalar y)
  | tensor {t u : Tensor} (h : t.Related S u) : Mapped S (.tensor t) (.tensor u)
  | labels (ls : List String) : Mapped S (.labels ls) (.labels ls)

namespace Value.Mapped

variable {a a' b b' : Value}

section Linear

variable [IsLinearRelation S]

theorem asTensor (h : Mapped S a b) (context : String) :
    Agree (Tensor.Related S) (a.asTensor context) (b.asTensor context) := by
  cases h with
  | scalar h => exact Agree.ok (Tensor.scalar_related h)
  | tensor h => exact Agree.ok h
  | labels ls => exact Agree.error _ _

omit [IsLinearRelation S] in
theorem asLabels (h : Mapped S a b) (context : String) :
    Agree Eq (a.asLabels context) (b.asLabels context) := by
  cases h with
  | labels ls => exact Agree.ok rfl
  | scalar h => exact Agree.error _ _
  | tensor h => exact Agree.error _ _

omit [IsLinearRelation S] in
theorem ofShaped {x y : Except ShapeError Tensor} (h : Agree (Tensor.Related S) x y) :
    Agree (Mapped S) (Value.ofShaped x) (Value.ofShaped y) :=
  (h.map fun _ _ => Mapped.tensor).mapError _ _

theorem add (h : Mapped S a b) (h' : Mapped S a' b') : Agree (Mapped S) (a.add a') (b.add b') := by
  cases h with
  | scalar h =>
      cases h' with
      | scalar h' => exact Agree.ok (.scalar (IsLinearRelation.add h h'))
      | tensor h' => exact ofShaped ((Tensor.scalar_related h).add h')
      | labels ls => exact Agree.error _ _
  | tensor h =>
      cases h' with
      | scalar h' => exact ofShaped (h.add (Tensor.scalar_related h'))
      | tensor h' => exact ofShaped (h.add h')
      | labels ls => exact Agree.error _ _
  | labels ls => exact Agree.error _ _

theorem neg (h : Mapped S a b) : Agree (Mapped S) a.neg b.neg := by
  cases h with
  | scalar h => exact Agree.ok (.scalar (IsLinearRelation.neg h))
  | tensor h => exact Agree.ok (.tensor h.neg)
  | labels ls => exact Agree.error _ _

theorem expand (h : Mapped S a b) :
    Agree (Mapped S) (Builtin.expand.apply [a]) (Builtin.expand.apply [b]) := by
  cases h with
  | scalar h => exact Agree.ok (.scalar (IsLinearRelation.expand h))
  | tensor h => exact Agree.ok (.tensor h.expand)
  | labels ls => exact Agree.error _ _

theorem isTensorial : IsTensorial S (Mapped S) where
  rational q := .scalar (IsLinearRelation.rational q)
  tensor := .tensor
  labels := .labels
  asTensor := asTensor
  asLabels := asLabels
  neg := neg
  add := add
  expand := expand

end Linear

section Ring

variable [IsRingRelation S]

/-- A tensor of multiples by scalars that stand for each other. -/
theorem scale {t u : Tensor} {x y : Scalar} (ht : t.Related S u) (hx : S x y) :
    (t.scale x).Related S (u.scale y) :=
  ht.map fun _ _ hc => IsRingRelation.mul hc hx

theorem mul (h : Mapped S a b) (h' : Mapped S a' b') : Agree (Mapped S) (a.mul a') (b.mul b') := by
  cases h with
  | scalar h =>
      cases h' with
      | scalar h' => exact Agree.ok (.scalar (IsRingRelation.mul h h'))
      | tensor h' => exact Agree.ok (.tensor (scale h' h))
      | labels ls => exact Agree.error _ _
  | tensor h =>
      cases h' with
      | scalar h' => exact Agree.ok (.tensor (scale h h'))
      | tensor h' => exact ((h.product h').map fun _ _ => Mapped.tensor).mapError _ _
      | labels ls => exact Agree.error _ _
  | labels ls => cases h' <;> exact Agree.error _ _

/-- Quotients by one value, which is a rational number if it is a scalar. -/
theorem div (h : Mapped S a b) {d : Value} (hd : ∀ x, d = .scalar x → ∃ q : ℚ, x = .rational q) :
    Agree (Mapped S) (a.div d) (b.div d) := by
  unfold Value.div
  split
  · rename_i x
    obtain ⟨q, rfl⟩ := hd x rfl
    by_cases hq : q = 0
    · subst hq
      exact Agree.error _ _
    · refine Agree.ite Iff.rfl (Agree.error _ _) ?_
      rw [Scalar.rational_inv hq]
      exact h.mul (.scalar (IsLinearRelation.rational q⁻¹))
  · exact Agree.error _ _

end Ring

end Value.Mapped

/-! ## Functions and expressions -/

theorem Builtin.apply_mapped [IsRingRelation S] {f : Builtin} (hf : f.isPolynomial = true)
    {vs ws : List Value} (h : List.Forall₂ (Value.Mapped S) vs ws) :
    Agree (Value.Mapped S) (f.apply vs) (f.apply ws) := by
  cases f with
  | multiply => exact Value.combine_agree (fun _ _ _ _ => Value.Mapped.mul) "Multiply" h
  | scale =>
      match vs, ws, h with
      | [_, _], [_, _], .cons hv (.cons hfactor .nil) =>
        cases hfactor with
        | scalar hx => exact (hv.asTensor _).bind fun _ _ ht => Agree.ok (.tensor (Value.Mapped.scale ht hx))
        | tensor _ => exact Agree.error _ _
        | labels ls => exact Agree.error _ _
      | [], [], _ => exact Agree.error _ _
      | [_], [_], _ => exact Agree.error _ _
      | _ :: _ :: _ :: _, _ :: _ :: _ :: _, _ => exact Agree.error _ _
  | add | subtract | renameIndices | symmetrize | antiSymmetrize | blockSymmetrize
  | exchangeSymmetrize | expand => exact apply_tensorial Value.Mapped.isTensorial rfl h
  | homogeneousSystem | substitute | mergeSubstitutions => cases hf

/-- **Values under mapped bindings.** -/
theorem Expression.evaluate_mapped [IsRingRelation S] {vs ws : Bindings}
    (h : Bindings.Paired (Value.Mapped S) vs ws) {e : Expression} (he : e.isIn .homomorphic = true) :
    Agree (Value.Mapped S) (e.evaluate vs) (e.evaluate ws) := by
  have hR := Value.Mapped.isTensorial (S := S)
  refine evaluate_paired hR h ?_ (fun _ hf _ _ hab => Builtin.apply_mapped hf hab) e he
  intro op l r hin a a' b b' ⟨_, _, ha⟩ ⟨hr, hr', hb⟩
  cases op with
  | add => exact hR.add ha hb
  | sub => exact hR.sub ha hb
  | mul => exact ha.mul hb
  | div =>
      -- The divisor has one value under both bindings.
      obtain rfl : b = b' := Except.ok.inj (hr.symm.trans ((evaluate_of_isClosed r hin).trans hr'))
      exact ha.div fun x hx => evaluate_closed_scalar hin (hx ▸ hr)

/-! ## Substitutions -/

/-- A polynomial, or a tensor of polynomials. -/
def Quantity.IsPolynomial (q : Quantity) : Prop := ∀ x ∈ q.toTensor.toList, x.isPolynomial = true

/-- Names of quantities. -/
def Bindings.ofQuantities (qs : List (String × Quantity)) : Bindings := qs.map fun b => (b.1, .quantity b.2)

namespace Substitution

variable {s : Substitution}

/-- The substitution applied to the quantities of all names, or the reason for which one is refused. -/
def applyAll (s : Substitution) (qs : List (String × Quantity)) : Except String (List (String × Quantity)) :=
  qs.mapM fun b => (s.apply b.2).map fun q => (b.1, q)

/-- A quantity with what the substitution makes of it, up to expansion; lists of labels as they are. -/
inductive Yields (s : Substitution) : Value → Value → Prop
  | quantity {p q r : Quantity} (happly : s.apply p = .ok q) (hexpand : r.expand = q.expand)
      (hlabels : r.toTensor.labels = p.toTensor.labels) : Yields s (.quantity p) (.quantity r)
  | labels (ls : List String) : Yields s (.labels ls) (.labels ls)

theorem apply_eq_ok (hs : s.IsPolynomial) (q : Quantity) : s.apply q = .ok (q.map s.applyScalar) := by
  rw [apply, hs.guard]

theorem apply_mapped (hs : s.IsPolynomial) {p : Quantity} (hp : p.IsPolynomial) :
    Value.Mapped (Maps s.hom) (.quantity p) (.quantity (p.map s.applyScalar)) := by
  have himage : ∀ x : Scalar, x.isPolynomial = true → Maps s.hom x (s.applyScalar x) := fun x hx =>
    Scalar.maps_of_denotes (Scalar.denotes_poly hx) (applyScalar_denotes hs (Scalar.denotes_poly hx))
  cases p with
  | scalar x => exact .scalar (himage x (hp x List.mem_cons_self))
  | tensor t =>
      have ht := (Tensor.related_same (P := Scalar.IsPolynomial)).mpr hp
      exact .tensor (ht.map_right fun a b ⟨hab, ha⟩ => hab ▸ himage a ha)

theorem applyAll_mapped (hs : s.IsPolynomial) : ∀ {qs : List (String × Quantity)},
    (∀ b ∈ qs, b.2.IsPolynomial) → ∃ qs', s.applyAll qs = .ok qs' ∧
      Bindings.Paired (Value.Mapped (Maps s.hom)) (.ofQuantities qs) (.ofQuantities qs')
  | [], _ => ⟨[], rfl, .nil⟩
  | (name, q) :: qs, h => by
    obtain ⟨qs', happly, hmapped⟩ := applyAll_mapped hs fun b hb => h b (List.mem_cons_of_mem _ hb)
    refine ⟨(name, q.map s.applyScalar) :: qs', ?_,
      .cons ⟨rfl, apply_mapped hs (h (name, q) List.mem_cons_self)⟩ hmapped⟩
    unfold applyAll at happly ⊢
    rw [List.mapM_cons, apply_eq_ok hs, happly]
    rfl

/-- The image of a quantity is, expanded, what the substitution makes of it. -/
theorem yields_of_mapped (hs : s.IsPolynomial) {v w : Value} (h : Value.Mapped (Maps s.hom) v w) :
    s.Yields v w := by
  have hsame : ∀ a b, Maps s.hom a b → Maps (AlgHom.id ℚ Poly) (s.applyScalar a) b := fun a b hab =>
    Scalar.maps_of_denotes (applyScalar_denotes hs hab.denotes_left) hab.denotes_right
  cases h with
  | @scalar a b h =>
      refine .quantity (apply_eq_ok hs (.scalar a)) ?_ rfl
      exact congrArg Quantity.scalar (hsame a b h).expand_eq.symm
  | @tensor t u h =>
      have hexpanded : (t.map s.applyScalar).expand.Related Eq u.expand :=
        (h.map_left hsame).map fun _ _ hab => hab.expand_eq
      exact .quantity (apply_eq_ok hs (.tensor t)) (congrArg Quantity.tensor hexpanded.ext) h.labels
  | labels ls => exact .labels ls

/-- **Evaluation commutes with substitution.** A substitution of polynomials for symbols refuses no
quantity of polynomials; an expression has a value after it exactly if it has one before, and the value
after it is, expanded, what the substitution makes of the value before, under the same labels in the same
order. -/
theorem evaluate_commutes (hs : s.IsPolynomial) {qs : List (String × Quantity)}
    (hqs : ∀ b ∈ qs, b.2.IsPolynomial) {e : Expression} (he : e.isIn .homomorphic = true) :
    ∃ qs', s.applyAll qs = .ok qs' ∧
      Agree s.Yields (e.evaluate (.ofQuantities qs)) (e.evaluate (.ofQuantities qs')) := by
  obtain ⟨qs', happly, hmapped⟩ := applyAll_mapped hs hqs
  refine ⟨qs', happly, ?_⟩
  have hagree := Expression.evaluate_mapped hmapped he
  cases hv : e.evaluate (.ofQuantities qs) <;> cases hw : e.evaluate (.ofQuantities qs')
  all_goals rw [hv, hw] at hagree
  · exact trivial
  · exact hagree
  · exact hagree
  · exact yields_of_mapped hs hagree

/-- The replacement of `x` by `y + 1`. -/
def shift : Substitution := { pairs := [(.symbol "x", .symbol "y" + 1)] }

/-- A polynomial `f` and a vector `v`. -/
def factorAndVector : List (String × Quantity) :=
  [("f", .scalar (.symbol "x" + 1)),
    ("v", .tensor ⟨["a"], 2, #[.symbol "x", .symbol "y"], by simp, rfl, by simp⟩)]

/-- The expression `f * v / 2`. -/
def halfProduct : Expression :=
  .binary .div (.binary .mul (.name "f" ⟨1, 1⟩) (.name "v" ⟨1, 5⟩)) (.number ⟨['2'], none⟩)

/-- Half the product of a polynomial and a vector, before and after a replacement. -/
theorem evaluate_commutes_halfProduct : ∃ qs', shift.applyAll factorAndVector = .ok qs' ∧
    ∃ v w, halfProduct.evaluate (.ofQuantities factorAndVector) = .ok v ∧
      halfProduct.evaluate (.ofQuantities qs') = .ok w ∧ shift.Yields v w := by
  have hs : shift.IsPolynomial := by
    refine ⟨fun _ => rfl, fun pair hpair => ?_⟩
    rw [List.mem_singleton.mp hpair]
    exact ⟨⟨"x", rfl⟩, by decide +kernel⟩
  have hqs : ∀ b ∈ factorAndVector, b.2.IsPolynomial := by
    unfold Quantity.IsPolynomial
    decide +kernel
  obtain ⟨qs', happly, hagree⟩ := evaluate_commutes hs hqs (e := halfProduct) rfl
  have hvalue : (halfProduct.evaluate (.ofQuantities factorAndVector)).isOk = true := by decide +kernel
  cases hv : halfProduct.evaluate (.ofQuantities factorAndVector) with
  | error error =>
      rw [hv] at hvalue
      cases hvalue
  | ok v =>
      obtain ⟨w, hw, hyields⟩ := hagree.exists_ok hv
      exact ⟨qs', happly, v, w, rfl, hw, hyields⟩

end Substitution

end TensorEquations
