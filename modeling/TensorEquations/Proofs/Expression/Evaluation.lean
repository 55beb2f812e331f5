import TensorEquations.Proofs.Expression.Related

/-!
# Evaluation of related programs

* `Fragment`, `Expression.isIn` — a part of the language, given by its operations and functions.
* `Fragment.polynomial`, `Fragment.linear` — sums and products; sums and rational multiples.
* `Bindings.Paired`, `Bindings.Related` — names with values that stand for each other.
* `Expression.evaluate_paired`, `Expression.evaluate_related` — **an expression has related values under
  related bindings, or none under both.**
* `Expression.evaluate_maps`, `Expression.evaluate_affine` — evaluation commutes with homomorphisms in the
  polynomial fragment, and keeps degrees at most one in the linear fragment.
* `Interpreter.evaluate_invariant` — **what every expression keeps, every program keeps.**
* `Interpreter.evaluate_isPolynomial` — **every program on polynomials has polynomials as values.**
-/

namespace TensorEquations

open Scalar (IsLinearRelation IsRingRelation Maps Same)

/-! ## Fragments -/

/-- What a part of the language admits: operations between two expressions, and functions. -/
structure Fragment where
  operation : Operation → Expression → Expression → Bool
  builtin : Builtin → Bool

/-- Whether an expression is made of numbers only. -/
def Expression.isNumeric : Expression → Bool
  | .number _ => true
  | .neg e => e.isNumeric
  | .binary _ l r => l.isNumeric && r.isNumeric
  | _ => false

namespace Fragment

/-- The whole language. -/
def all : Fragment := ⟨fun _ _ _ => true, fun _ => true⟩

/-- Everything that sums and products are enough for. -/
def polynomial : Fragment := ⟨fun _ _ _ => true, Builtin.isPolynomial⟩

/-- Everything that sums and rational multiples are enough for. -/
def linear : Fragment where
  operation op l r :=
    match op with
    | .mul => l.isNumeric || r.isNumeric
    | _ => true
  builtin := Builtin.isLinear

end Fragment

namespace Expression

mutual

/-- Whether an expression belongs to a fragment. -/
def isIn (F : Fragment) : Expression → Bool
  | .number _ => true
  | .name _ _ => true
  | .labels _ => true
  | .neg e => e.isIn F
  | .binary op l r => F.operation op l r && l.isIn F && r.isIn F
  | .call function _ arguments => (Builtin.ofName? function).all F.builtin && areIn F arguments

def areIn (F : Fragment) : List Expression → Bool
  | [] => true
  | e :: es => e.isIn F && areIn F es

end

mutual

/-- A part of a part. -/
theorem isIn_mono {F G : Fragment} (hop : ∀ op l r, F.operation op l r = true → G.operation op l r = true)
    (hf : ∀ f, F.builtin f = true → G.builtin f = true) : ∀ e : Expression, e.isIn F = true →
    e.isIn G = true
  | .number _, _ => rfl
  | .name _ _, _ => rfl
  | .labels _, _ => rfl
  | .neg e, h => isIn_mono hop hf e h
  | .binary op l r, h => by
    rw [isIn, Bool.and_eq_true, Bool.and_eq_true] at h ⊢
    exact ⟨⟨hop op l r h.1.1, isIn_mono hop hf l h.1.2⟩, isIn_mono hop hf r h.2⟩
  | .call function _ arguments, h => by
    rw [isIn, Bool.and_eq_true] at h ⊢
    refine ⟨?_, areIn_mono hop hf arguments h.2⟩
    cases hg : Builtin.ofName? function with
    | none => rfl
    | some f =>
        rw [hg] at h
        exact hf f h.1

theorem areIn_mono {F G : Fragment} (hop : ∀ op l r, F.operation op l r = true → G.operation op l r = true)
    (hf : ∀ f, F.builtin f = true → G.builtin f = true) : ∀ es : List Expression, areIn F es = true →
    areIn G es = true
  | [], _ => rfl
  | e :: es, h => by
    rw [areIn, Bool.and_eq_true] at h ⊢
    exact ⟨isIn_mono hop hf e h.1, areIn_mono hop hf es h.2⟩

end

/-- The linear fragment is part of the polynomial one. -/
theorem isIn_polynomial {e : Expression} (h : e.isIn .linear = true) : e.isIn .polynomial = true := by
  refine isIn_mono (fun _ _ _ _ => rfl) (fun f hf => ?_) e h
  cases f <;> first | rfl | exact hf

mutual

theorem isIn_all : ∀ e : Expression, e.isIn .all = true
  | .number _ => rfl
  | .name _ _ => rfl
  | .labels _ => rfl
  | .neg e => isIn_all e
  | .binary op l r => by rw [isIn, isIn_all l, isIn_all r]; rfl
  | .call function _ arguments => by
    rw [isIn, areIn_all arguments, Bool.and_true]
    cases Builtin.ofName? function <;> rfl

theorem areIn_all : ∀ es : List Expression, areIn .all es = true
  | [] => rfl
  | e :: es => by rw [areIn, isIn_all e, areIn_all es]; rfl

end

end Expression

/-! ## Bindings -/

/-- The same names with values that stand for each other. -/
def Bindings.Paired (R : Value → Value → Prop) : Bindings → Bindings → Prop :=
  List.Forall₂ fun b c => b.1 = c.1 ∧ R b.2 c.2

/-- The same names with related values. -/
def Bindings.Related (S : Scalar → Scalar → Prop) : Bindings → Bindings → Prop :=
  List.Forall₂ fun b c => b.1 = c.1 ∧ Value.Related S b.2 c.2

theorem Bindings.Paired.lookup {R : Value → Value → Prop} (name : String) : ∀ {vs ws : Bindings},
    Bindings.Paired R vs ws → vs.lookup name = none ∧ ws.lookup name = none ∨
      ∃ v w, vs.lookup name = some v ∧ ws.lookup name = some w ∧ R v w
  | [], [], _ => .inl ⟨rfl, rfl⟩
  | (n, v) :: vs, (m, w) :: ws, h => by
    obtain ⟨⟨rfl, hv⟩, hs⟩ := List.forall₂_cons.mp h
    rw [List.lookup_cons, List.lookup_cons]
    cases name == n with
    | true => exact .inr ⟨v, w, rfl, rfl, hv⟩
    | false => exact lookup name hs

namespace Bindings.Related

variable {S : Scalar → Scalar → Prop}

theorem assign {name : String} {v w : Value} (hv : Value.Related S v w) : ∀ {vs ws : Bindings},
    Bindings.Related S vs ws → Bindings.Related S (vs.assign name v) (ws.assign name w)
  | [], [], _ => .cons ⟨rfl, hv⟩ .nil
  | (n, a) :: vs, (m, b) :: ws, h => by
    obtain ⟨⟨rfl, hab⟩, hs⟩ := List.forall₂_cons.mp h
    rw [Bindings.assign, Bindings.assign]
    split
    · exact .cons ⟨rfl, hv⟩ hs
    · exact .cons ⟨rfl, hab⟩ (assign hv hs)

end Bindings.Related

/-! ## Expressions -/

namespace Expression

variable {S : Scalar → Scalar → Prop} {R : Value → Value → Prop} {F : Fragment} {vs ws : Bindings}

mutual

/-- **Values under paired bindings.** Of the operations of the fragment only those on values that the
operands can have need to be known. -/
theorem evaluate_paired (hR : Value.IsTensorial S R) (h : Bindings.Paired R vs ws)
    (hop : ∀ op l r, F.operation op l r = true → ∀ a a' b b',
      l.evaluate vs = .ok a ∧ l.evaluate ws = .ok a' ∧ R a a' →
      r.evaluate vs = .ok b ∧ r.evaluate ws = .ok b' ∧ R b b' → Agree R (op.apply a b) (op.apply a' b'))
    (hbuiltin : ∀ f, F.builtin f = true → ∀ as bs, List.Forall₂ R as bs → Agree R (f.apply as) (f.apply bs)) :
    ∀ e : Expression, e.isIn F = true → Agree R (e.evaluate vs) (e.evaluate ws)
  | .number n, _ => by
    rw [evaluate, evaluate]
    unfold Numeral.evaluate
    split
    · exact Agree.error _ _
    · exact Agree.ok (hR.rational n.value)
  | .name text place, _ => by
    rw [evaluate, evaluate]
    rcases h.lookup text with ⟨hv, hw⟩ | ⟨v, w, hv, hw, hvw⟩
    · rw [hv, hw]
      exact Agree.error _ _
    · rw [hv, hw]
      exact Agree.ok hvw
  | .labels ls, _ => by
    rw [evaluate, evaluate]
    exact Agree.ok (hR.labels ls)
  | .neg e, he => by
    rw [evaluate, evaluate]
    exact (evaluate_paired hR h hop hbuiltin e he).bind fun _ _ hv => hR.neg hv
  | .binary op l r, he => by
    rw [isIn, Bool.and_eq_true, Bool.and_eq_true] at he
    have hl := (evaluate_paired hR h hop hbuiltin l he.1.2).and_eq
    have hr := (evaluate_paired hR h hop hbuiltin r he.2).and_eq
    rw [evaluate, evaluate]
    exact hl.bind fun a a' ha => hr.bind fun b b' hb => hop op l r he.1.1 a a' b b' ha hb
  | .call function place arguments, he => by
    rw [isIn, Bool.and_eq_true] at he
    rw [evaluate, evaluate]
    refine (evaluateAll_paired hR h hop hbuiltin arguments he.2).bind fun as bs hab => ?_
    cases hf : Builtin.ofName? function with
    | none => exact Agree.error _ _
    | some f =>
        rw [hf] at he
        exact Builtin.call_agree hab (hbuiltin f he.1 as bs hab)

theorem evaluateAll_paired (hR : Value.IsTensorial S R) (h : Bindings.Paired R vs ws)
    (hop : ∀ op l r, F.operation op l r = true → ∀ a a' b b',
      l.evaluate vs = .ok a ∧ l.evaluate ws = .ok a' ∧ R a a' →
      r.evaluate vs = .ok b ∧ r.evaluate ws = .ok b' ∧ R b b' → Agree R (op.apply a b) (op.apply a' b'))
    (hbuiltin : ∀ f, F.builtin f = true → ∀ as bs, List.Forall₂ R as bs → Agree R (f.apply as) (f.apply bs)) :
    ∀ es : List Expression, areIn F es = true →
      Agree (List.Forall₂ R) (evaluateAll vs es) (evaluateAll ws es)
  | [], _ => by
    rw [evaluateAll, evaluateAll]
    exact Agree.ok .nil
  | e :: es, hes => by
    rw [areIn, Bool.and_eq_true] at hes
    rw [evaluateAll, evaluateAll]
    exact (evaluate_paired hR h hop hbuiltin e hes.1).bind fun _ _ hv =>
      (evaluateAll_paired hR h hop hbuiltin es hes.2).bind fun _ _ hvs => Agree.ok (.cons hv hvs)

end

/-- **Values under related bindings.** -/
theorem evaluate_related [IsLinearRelation S] (h : Bindings.Related S vs ws)
    (hop : ∀ op l r, F.operation op l r = true → ∀ a a' b b', l.evaluate vs = .ok a →
      r.evaluate vs = .ok b → Value.Related S a a' → Value.Related S b b' →
        Agree (Value.Related S) (op.apply a b) (op.apply a' b'))
    (hbuiltin : ∀ f, F.builtin f = true → ∀ as bs, List.Forall₂ (Value.Related S) as bs →
      Agree (Value.Related S) (f.apply as) (f.apply bs)) :
    ∀ e : Expression, e.isIn F = true → Agree (Value.Related S) (e.evaluate vs) (e.evaluate ws) :=
  evaluate_paired Value.Related.isTensorial h
    (fun op l r hin a a' b b' ha hb => hop op l r hin a a' b b' ha.1 hb.1 ha.2.2 hb.2.2) hbuiltin

/-- The operations on related values, for sums and products. -/
theorem operation_related [IsRingRelation S] (op : Operation) {a a' b b' : Value}
    (ha : Value.Related S a a') (hb : Value.Related S b b') :
    Agree (Value.Related S) (op.apply a b) (op.apply a' b') := by
  cases op with
  | add => exact ha.add hb
  | sub => exact ha.sub hb
  | mul => exact ha.mul hb
  | div => exact ha.div hb

/-- **Evaluation in the polynomial fragment commutes with homomorphisms.** -/
theorem evaluate_maps {φ : Poly →ₐ[ℚ] Poly} (h : Bindings.Related (Maps φ) vs ws) {e : Expression}
    (he : e.isIn .polynomial = true) :
    Agree (Value.Related (Maps φ)) (e.evaluate vs) (e.evaluate ws) :=
  evaluate_related h (fun op _ _ _ _ _ _ _ _ _ ha hb => operation_related op ha hb)
    (fun _ hf _ _ hab => Builtin.apply_related hf hab) e he

theorem operation_rational (op : Operation) {p q : ℚ} {v : Value}
    (hv : op.apply (.scalar (.rational p)) (.scalar (.rational q)) = .ok v) :
    ∃ r : ℚ, v = .scalar (.rational r) := by
  cases op with
  | add =>
      cases hv
      exact ⟨p + q, congrArg Value.scalar (Scalar.rational_add p q)⟩
  | sub =>
      cases hv
      refine ⟨p + -q, congrArg Value.scalar ?_⟩
      rw [Scalar.rational_neg, Scalar.rational_add]
  | mul =>
      cases hv
      exact ⟨p * q, congrArg Value.scalar (Scalar.rational_mul p q)⟩
  | div =>
      change (if (Scalar.rational q).isZero = true then _ else _) = _ at hv
      split at hv
      · cases hv
      · rename_i hz
        have hq : q ≠ 0 := fun h => hz (by rw [h]; rfl)
        cases hv
        refine ⟨p * q⁻¹, congrArg Value.scalar ?_⟩
        rw [Scalar.rational_inv hq, Scalar.rational_mul]

/-- The value of an expression of numbers is a number. -/
theorem evaluate_isNumeric : ∀ {e : Expression}, e.isNumeric = true → ∀ {v : Value},
    e.evaluate vs = .ok v → ∃ q : ℚ, v = .scalar (.rational q)
  | .number n, _, v, hv => by
    rw [evaluate, Numeral.evaluate] at hv
    split at hv
    · cases hv
    · cases hv
      exact ⟨n.value, rfl⟩
  | .neg e, he, v, hv => by
    rw [isNumeric] at he
    rw [evaluate] at hv
    obtain ⟨a, ha, hn⟩ := bind_eq_ok hv
    obtain ⟨q, rfl⟩ := evaluate_isNumeric he ha
    cases hn
    exact ⟨-q, congrArg Value.scalar (Scalar.rational_neg q)⟩
  | .binary op l r, he, v, hv => by
    rw [isNumeric, Bool.and_eq_true] at he
    rw [evaluate] at hv
    obtain ⟨a, ha, hv⟩ := bind_eq_ok hv
    obtain ⟨b, hb, hv⟩ := bind_eq_ok hv
    obtain ⟨p, rfl⟩ := evaluate_isNumeric he.1 ha
    obtain ⟨q, rfl⟩ := evaluate_isNumeric he.2 hb
    exact operation_rational op hv
  | .name _ _, he, _, _ => nomatch he
  | .call _ _ _, he, _, _ => nomatch he
  | .labels _, he, _, _ => nomatch he

/-- **Evaluation in the linear fragment keeps degrees at most one** and brings no symbols in. -/
theorem evaluate_affine {A : Set String} (h : Bindings.Related (Same (Scalar.IsAffine A)) vs vs)
    {e : Expression}
    (he : e.isIn .linear = true) {v : Value} (hv : e.evaluate vs = .ok v) :
    Value.Related (Same (Scalar.IsAffine A)) v v := by
  have hagree : Agree (Value.Related (Same (Scalar.IsAffine A))) (e.evaluate vs) (e.evaluate vs) := by
    refine evaluate_related h ?_ (fun _ hf _ _ hab => Builtin.apply_related_linear hf hab) e he
    intro op l r hin a a' b b' hl hr ha hb
    cases op with
    | add => exact ha.add hb
    | sub => exact ha.sub hb
    | div => exact ha.div hb
    | mul =>
        rcases Bool.or_eq_true_iff.mp hin with hnumeric | hnumeric
        · obtain ⟨q, rfl⟩ := evaluate_isNumeric hnumeric hl
          rw [ha.eq_of_scalar]
          exact Value.Related.rational_mul q hb
        · obtain ⟨q, rfl⟩ := evaluate_isNumeric hnumeric hr
          rw [hb.eq_of_scalar]
          exact ha.mul_rational q
  rw [hv] at hagree
  exact hagree

end Expression

/-! ## Invariants of programs -/

section Programs

variable {P : Value → Prop}

theorem Bindings.forall_assign {name : String} {v : Value} (hv : P v) : ∀ {vs : Bindings},
    (∀ b ∈ vs, P b.2) → ∀ b ∈ vs.assign name v, P b.2
  | [], _, b, hb => by
    rw [List.mem_singleton.mp hb]
    exact hv
  | (n, w) :: vs, h, b, hb => by
    rw [List.forall_mem_cons] at h
    rw [assign] at hb
    split at hb
    · rcases List.mem_cons.mp hb with rfl | hb
      · exact hv
      · exact h.2 b hb
    · rcases List.mem_cons.mp hb with rfl | hb
      · exact h.1
      · exact forall_assign hv h.2 b hb

/-- What every expression keeps from the values of the names to its own value, every statement keeps. -/
theorem runStatements_invariant (hP : ∀ vs : Bindings, (∀ b ∈ vs, P b.2) → ∀ (e : Expression) v,
    e.evaluate vs = .ok v → P v) : ∀ {p : Program} {vs : Bindings} {last v : Value},
    (∀ b ∈ vs, P b.2) → P last → (runStatements vs last p).1 = .ok v → P v
  | [], _, _, _, _, hlast, hv => by
    cases hv
    exact hlast
  | s :: p, vs, last, v, h, _, hv => by
    rw [runStatements] at hv
    cases hs : s.run vs with
    | error e =>
        rw [hs] at hv
        cases hv
    | ok r =>
        rw [hs] at hv
        cases s with
        | value e =>
            obtain ⟨a, ha, hs⟩ := bind_eq_ok hs
            cases hs
            exact runStatements_invariant hP h (hP vs h e a ha) hv
        | assign name e =>
            obtain ⟨a, ha, hs⟩ := bind_eq_ok hs
            cases hs
            exact runStatements_invariant hP (Bindings.forall_assign (hP vs h e a ha) h) (hP vs h e a ha) hv

/-- **What every expression keeps, every program keeps.** -/
theorem Interpreter.evaluate_invariant (hP : ∀ vs : Bindings, (∀ b ∈ vs, P b.2) → ∀ (e : Expression) v,
    e.evaluate vs = .ok v → P v) (hnothing : P .nothing) {vs : Bindings} (h : ∀ b ∈ vs, P b.2)
    {source : String} {v : Value} (hv : ((start vs).evaluate source).1 = .ok v) : P v := by
  unfold evaluate at hv
  split at hv
  · cases hv
  · rename_i statements _
    have hrun : (runStatements vs .nothing statements).1 = .ok v := by
      revert hv
      simp only [start]
      rcases runStatements vs .nothing statements with ⟨_ | _, _⟩ <;> exact id
    exact runStatements_invariant hP h hnothing hrun

end Programs

/-! ## Polynomial programs -/

/-- A rational number, a tensor of polynomials, a substitution of polynomials for symbols, a list of labels
or nothing. -/
def Value.IsPolynomial (v : Value) : Prop := Value.Related (Same Scalar.IsPolynomial) v v

def Bindings.IsPolynomial (vs : Bindings) : Prop := Bindings.Related (Same Scalar.IsPolynomial) vs vs

theorem Bindings.isPolynomial_iff {vs : Bindings} : vs.IsPolynomial ↔ ∀ b ∈ vs, b.2.IsPolynomial := by
  unfold Bindings.IsPolynomial Bindings.Related
  rw [List.forall₂_same]
  exact forall₂_congr fun _ _ => and_iff_right rfl

/-- Related values are equal, for a relation of scalars with themselves. -/
theorem Value.Related.eq_of_same {P : Scalar → Prop} [IsLinearRelation (Same P)] {v w : Value}
    (h : Value.Related (Same P) v w) : w = v := by
  cases h with
  | tensor h => rw [h.eq_of_same]
  | rational q => rfl
  | substitution _ => rfl
  | labels ls => rfl
  | nothing => rfl

theorem forall₂_eq_of_same {P : Scalar → Prop} [IsLinearRelation (Same P)] {vs ws : List Value}
    (h : List.Forall₂ (Value.Related (Same P)) vs ws) : ws = vs :=
  (List.forall₂_eq_eq_eq ▸ h.imp fun _ _ hvw => hvw.eq_of_same.symm : vs = ws).symm

namespace Builtin

theorem solveHomogeneous_isPolynomial {v w : Value} (h : v.IsPolynomial)
    (hw : solveHomogeneous v = .ok w) : w.IsPolynomial := by
  cases h with
  | rational q =>
      obtain ⟨s, hs, rfl⟩ := map_eq_ok (mapError_eq_ok hw)
      refine .substitution (Substitution.homogeneous_isPolynomial (fun x hx => ?_) hs)
      rw [List.mem_singleton.mp hx]
      exact (Scalar.rational_denotes q).isPolynomial
  | tensor h =>
      obtain ⟨s, hs, rfl⟩ := map_eq_ok (mapError_eq_ok hw)
      have ht := (Tensor.related_same (P := Scalar.IsPolynomial)).mp h
      exact .substitution (Substitution.homogeneous_isPolynomial ht hs)
  | substitution _ => cases hw
  | labels ls => cases hw
  | nothing => cases hw

theorem substituteIn_isPolynomial {v s w : Value} (hv : v.IsPolynomial) (hs : s.IsPolynomial)
    (hw : substituteIn v s = .ok w) : w.IsPolynomial := by
  obtain ⟨s', hs', happlied⟩ := bind_eq_ok hw
  cases hs with
  | @substitution t ht =>
      obtain rfl : s' = t := (Except.ok.inj hs').symm
      have happly : ∀ q, s'.apply q = .ok (q.map s'.applyScalar) := by
        intro q
        rw [Substitution.apply, ht.guard]
      cases hv with
      | rational q =>
          obtain ⟨a, ha, rfl⟩ := map_eq_ok (mapError_eq_ok happlied)
          rw [happly] at ha
          cases ha
          show Value.IsPolynomial (.scalar (s'.applyScalar (.rational q)))
          rw [Substitution.applyScalar_rational ht]
          exact .rational q
      | tensor h =>
          obtain ⟨a, ha, rfl⟩ := map_eq_ok (mapError_eq_ok happlied)
          rw [happly] at ha
          cases ha
          refine .tensor (h.map ?_)
          rintro a _ ⟨rfl, ha⟩
          exact ⟨rfl, (Substitution.applyScalar_denotes ht (Scalar.denotes_poly ha)).isPolynomial⟩
      | substitution _ => cases happlied
      | labels ls => cases happlied
      | nothing => cases happlied
  | rational q => cases hs'
  | tensor h => cases hs'
  | labels ls => cases hs'
  | nothing => cases hs'

theorem mapM_asSubstitution {context : String} : ∀ {vs : List Value} {ss : List Substitution},
    (∀ v ∈ vs, v.IsPolynomial) → vs.mapM (fun v => v.asSubstitution context) = .ok ss →
    ∀ s ∈ ss, s.IsPolynomial
  | [], ss, _, h, s, hs => by
    cases h
    cases hs
  | v :: vs, ss, hv, h, s, hs => by
    rw [List.mapM_cons] at h
    obtain ⟨s', hs', h⟩ := bind_eq_ok h
    obtain ⟨ss', hss', h⟩ := bind_eq_ok h
    cases h
    rcases List.mem_cons.mp hs with rfl | hs
    · have := (hv v List.mem_cons_self).asSubstitution context
      rw [hs'] at this
      exact this.2
    · exact mapM_asSubstitution (fun v h => hv v (List.mem_cons_of_mem _ h)) hss' s hs

/-- **Every function on polynomial values has polynomial values.** -/
theorem apply_isPolynomial (f : Builtin) {vs : List Value} (h : ∀ v ∈ vs, v.IsPolynomial) {w : Value}
    (hw : f.apply vs = .ok w) : w.IsPolynomial := by
  by_cases hf : f.isPolynomial = true
  · have hvs : List.Forall₂ (Value.Related (Same Scalar.IsPolynomial)) vs vs :=
      List.forall₂_same.mpr h
    have hagree := apply_related hf hvs
    rw [hw] at hagree
    exact hagree
  · cases f with
    | homogeneousSystem =>
        match vs, h with
        | [v], h => exact solveHomogeneous_isPolynomial (h v List.mem_cons_self) hw
        | [], _ => cases hw
        | _ :: _ :: _, _ => cases hw
    | substitute =>
        match vs, h with
        | [v, s], h =>
          exact substituteIn_isPolynomial (h v List.mem_cons_self)
            (h s (List.mem_cons_of_mem _ List.mem_cons_self)) hw
        | [], _ => cases hw
        | [_], _ => cases hw
        | _ :: _ :: _ :: _, _ => cases hw
    | mergeSubstitutions =>
        obtain ⟨ss, hss, hw⟩ := bind_eq_ok hw
        obtain ⟨s, hs, rfl⟩ := map_eq_ok (mapError_eq_ok hw)
        exact .substitution (Substitution.merge_isPolynomial (mapM_asSubstitution h hss) hs)
    | _ => exact absurd rfl hf

end Builtin

/-- **Every expression of polynomials has polynomial values.** -/
theorem Expression.evaluate_isPolynomial {vs : Bindings} (h : vs.IsPolynomial) (e : Expression)
    {v : Value} (hv : e.evaluate vs = .ok v) : v.IsPolynomial := by
  have hagree := evaluate_related (F := .all) h (fun op _ _ _ _ _ _ _ _ _ ha hb => operation_related op ha hb)
    (fun f _ as bs hab => by
      obtain rfl := forall₂_eq_of_same hab
      exact Agree.self fun w hw => f.apply_isPolynomial
        ((@List.forall₂_same _ (Value.Related (Same Scalar.IsPolynomial)) _).mp hab) hw) e e.isIn_all
  rw [hv] at hagree
  exact hagree

/-- **Every program on polynomials has polynomials as values.** -/
theorem Interpreter.evaluate_isPolynomial {vs : Bindings} (h : vs.IsPolynomial) {source : String}
    {v : Value} (hv : ((start vs).evaluate source).1 = .ok v) : v.IsPolynomial :=
  evaluate_invariant (P := Value.IsPolynomial)
    (fun _ hvs e _ hv => e.evaluate_isPolynomial (Bindings.isPolynomial_iff.mpr hvs) hv) .nothing
    (Bindings.isPolynomial_iff.mp h) hv

end TensorEquations
