import TensorEquations.Proofs.Expression.Evaluation

/-!
# The symbols of values

No program brings symbols in. On tensors in some symbols it has values in these symbols, and what it solves for
is among them.

* `Scalar.IsOver`, `Substitution.IsOver` — a polynomial in given symbols; polynomials in given symbols for some
  of them.
* `Substitution.IsPolynomial.update_isOver` — the symbols of a tensor after a substitution.
* `Substitution.IsOver.update`, `Substitution.IsOver.update_eq` — what such a substitution does to a tensor:
  **one in other symbols stays as it is.**
* `Value.Over` — a value in given symbols.
* `Interpreter.evaluate_over` — **every program on tensors in given symbols has values in these symbols.**
-/

namespace TensorEquations

open MvPolynomial
open Scalar (IsLinearRelation IsRingRelation Maps Same)

variable {A B : Set String}

/-! ## Scalars -/

namespace Scalar

/-- A polynomial in given symbols. -/
structure IsOver (A : Set String) (s : Scalar) : Prop where
  isPolynomial : s.isPolynomial = true
  symbols : ∀ n ∈ s.poly.vars, n ∈ A

theorem Denotes.isOver {s : Scalar} {p : Poly} (h : s.Denotes p) (hA : ∀ n ∈ p.vars, n ∈ A) : s.IsOver A :=
  ⟨h.isPolynomial, h.poly_eq ▸ hA⟩

theorem IsOver.mono {s : Scalar} (h : s.IsOver A) (hAB : A ⊆ B) : s.IsOver B :=
  ⟨h.isPolynomial, fun n hn => hAB (h.symbols n hn)⟩

theorem IsOver.mul {a b : Scalar} (ha : a.IsOver A) (hb : b.IsOver A) : (a * b).IsOver A :=
  ((denotes_poly ha.isPolynomial).mul (denotes_poly hb.isPolynomial)).isOver fun n hn =>
    (Finset.mem_union.mp (vars_mul _ _ hn)).elim (ha.symbols n) (hb.symbols n)

theorem rational_isOver (q : ℚ) : (rational q).IsOver A := (rational_denotes q).isOver (by simp)

instance : IsRingRelation (Same (IsOver A)) where
  rational q := ⟨rfl, rational_isOver q⟩
  add := by
    rintro a _ b _ ⟨rfl, ha⟩ ⟨rfl, hb⟩
    refine ⟨rfl, ((denotes_poly ha.isPolynomial).add (denotes_poly hb.isPolynomial)).isOver fun n hn => ?_⟩
    exact (Finset.mem_union.mp (vars_add_subset _ _ hn)).elim (ha.symbols n) (hb.symbols n)
  neg := by
    rintro a _ ⟨rfl, ha⟩
    refine ⟨rfl, (denotes_poly ha.isPolynomial).neg.isOver ?_⟩
    rw [vars_neg]
    exact ha.symbols
  scale := by
    rintro a _ q ⟨rfl, ha⟩
    exact ⟨rfl, ha.mul (rational_isOver q)⟩
  expand := by
    rintro a _ ⟨rfl, ha⟩
    exact ⟨rfl, (expand_denotes ha.isPolynomial).isOver ha.symbols⟩
  mul := by
    rintro a _ b _ ⟨rfl, ha⟩ ⟨rfl, hb⟩
    exact ⟨rfl, ha.mul hb⟩

end Scalar

/-- Every component of a tensor is a polynomial in given symbols. -/
def Tensor.IsOver (A : Set String) (t : Tensor) : Prop := ∀ s ∈ t.toList, s.IsOver A

theorem Tensor.isOver_iff {t : Tensor} : t.IsOver A ↔ t.Related (Same (Scalar.IsOver A)) t :=
  related_same.symm

theorem Tensor.IsOver.isPolynomial {t : Tensor} (h : t.IsOver A) : t.IsPolynomial :=
  fun s hs => (h s hs).isPolynomial

/-! ## Substitutions -/

/-- Polynomials in given symbols for some of these symbols. -/
structure Substitution.IsOver (A : Set String) (s : Substitution) : Prop where
  guard : ∀ q, s.guard q = none
  pairs : ∀ pair ∈ s.pairs, (∃ n ∈ A, pair.1 = .symbol n) ∧ pair.2.IsOver A

theorem SolvedForm.isOver {ps : List Poly} {pairs : List (String × Scalar)} (h : SolvedForm ps pairs)
    (hA : ∀ p ∈ ps, ∀ n ∈ p.vars, n ∈ A) : (Substitution.ofSolved pairs).IsOver A := by
  refine ⟨fun _ => rfl, fun pair hpair => ?_⟩
  obtain ⟨source, hsource, rfl⟩ := List.mem_map.mp hpair
  refine ⟨?_, h.isPolynomial source hsource, fun n hn => ?_⟩
  · obtain ⟨p, hp, hv⟩ := h.left source hsource
    exact ⟨_, hA p hp _ hv, rfl⟩
  · obtain ⟨p, hp, hv⟩ := h.right source hsource n (Scalar.mem_symbols_of_mem_vars hn)
    exact hA p hp n hv

namespace Substitution

variable {s : Substitution}

theorem IsOver.isPolynomial (h : s.IsOver A) : s.IsPolynomial :=
  ⟨h.guard, fun pair hpair => by
    obtain ⟨⟨n, -, hn⟩, hright⟩ := h.pairs pair hpair
    exact ⟨⟨n, hn⟩, hright.isPolynomial⟩⟩

theorem homogeneous_isOver {inputs : List Scalar} (h : ∀ x ∈ inputs, x.IsOver A)
    (hs : homogeneous inputs = .ok s) : s.IsOver A := by
  obtain ⟨-, pairs, rfl, hform⟩ := (homogeneous_solvesRows fun x hx => (h x hx).isPolynomial).ok hs
  refine hform.isOver fun p hp => ?_
  obtain ⟨x, hx, rfl⟩ := List.mem_map.mp hp
  exact (h x hx).symbols

theorem merge_isOver {ss : List Substitution} (h : ∀ s ∈ ss, s.IsOver A) (hs : merge ss = .ok s) :
    s.IsOver A := by
  by_cases hn : ss.length = 1
  · obtain ⟨s', rfl⟩ := List.length_eq_one_iff.mp hn
    cases hs
    exact h _ List.mem_cons_self
  · have hover : ∀ s ∈ ss, ∀ pair ∈ s.pairs, pair.1.IsOver A ∧ pair.2.IsOver A := by
      intro s hs pair hpair
      obtain ⟨⟨n, hn, hleft⟩, hright⟩ := (h s hs).pairs pair hpair
      refine ⟨hleft ▸ (Scalar.symbol_denotes n).isOver fun m hm => ?_, hright⟩
      rw [vars_X, Finset.mem_singleton] at hm
      exact hm ▸ hn
    have hrows := merge_solvesRows hn fun s hs pair hpair =>
      ⟨(hover s hs pair hpair).1.isPolynomial, (hover s hs pair hpair).2.isPolynomial⟩
    obtain ⟨-, pairs, rfl, hform⟩ := hrows.ok hs
    refine hform.isOver fun p hp => ?_
    obtain ⟨x, hx, rfl⟩ := List.mem_map.mp hp
    obtain ⟨pair, hpair, rfl⟩ := List.mem_map.mp hx
    obtain ⟨s, hs, hmem⟩ := List.mem_flatMap.mp hpair
    obtain ⟨hleft, hright⟩ := hover s hs pair hmem
    have hneg := (IsLinearRelation.neg (S := Same (Scalar.IsOver A)) ⟨rfl, hright⟩)
    exact (IsLinearRelation.add ⟨rfl, hleft⟩ hneg).2.symbols

/-- A tensor whose components become polynomials in given symbols. -/
theorem IsPolynomial.map_applyScalar_isOver (hs : s.IsPolynomial)
    (hhom : ∀ p : Poly, (∀ n ∈ p.vars, n ∈ A) → ∀ n ∈ (s.hom p).vars, n ∈ B) {t : Tensor} (ht : t.IsOver A) :
    (t.map s.applyScalar).IsOver B := by
  refine Tensor.isOver_iff.mpr ((Tensor.isOver_iff.mp ht).map ?_)
  rintro a _ ⟨rfl, ha⟩
  have himage := applyScalar_denotes hs (Scalar.denotes_poly ha.isPolynomial)
  exact ⟨rfl, himage.isOver (hhom _ ha.symbols)⟩

theorem IsPolynomial.update_isOver (hs : s.IsPolynomial)
    (hhom : ∀ p : Poly, (∀ n ∈ p.vars, n ∈ A) → ∀ n ∈ (s.hom p).vars, n ∈ B) {t v : Tensor} (ht : t.IsOver A)
    (hv : s.update t = .ok v) : v.IsOver B ∧ v.expand = v := by
  have happlied := hs.map_applyScalar_isOver hhom ht
  unfold Substitution.update Substitution.apply at hv
  rw [hs.guard] at hv
  cases hv
  exact ⟨Tensor.isOver_iff.mpr (Tensor.isOver_iff.mp happlied).expand, happlied.isPolynomial.expand_expand⟩

namespace IsOver

theorem replacements (h : s.IsOver A) : ∀ r ∈ s.replacements, r.1 ∈ A ∧ ∀ n ∈ r.2.vars, n ∈ A := by
  intro r hr
  obtain ⟨pair, hpair, rfl⟩ := List.mem_map.mp hr
  obtain ⟨⟨n, hn, hleft⟩, hright⟩ := h.pairs pair hpair
  rw [hleft, Scalar.symbol?_symbol]
  exact ⟨hn, hright.symbols⟩

/-- The image of a polynomial in more symbols. -/
theorem mem_vars_hom (h : s.IsOver A) (hAB : A ⊆ B) {p : Poly} (hp : ∀ n ∈ p.vars, n ∈ B) :
    ∀ n ∈ (s.hom p).vars, n ∈ B := by
  intro n hn
  rcases mem_vars_replaceAll hn with hn | ⟨r, hr, hn⟩
  · exact hp n hn
  · exact hAB ((h.replacements r hr).2 n hn)

/-- The image of a polynomial in other symbols. -/
theorem hom_eq_self (h : s.IsOver A) {p : Poly} (hp : ∀ n ∈ p.vars, n ∉ A) : s.hom p = p :=
  replaceAll_eq_self fun r hr hmem => hp _ hmem (h.replacements r hr).1

/-- A tensor in more symbols stays one. -/
theorem map_applyScalar (h : s.IsOver A) (hAB : A ⊆ B) {t : Tensor} (ht : t.IsOver B) :
    (t.map s.applyScalar).IsOver B :=
  h.isPolynomial.map_applyScalar_isOver (fun _ => h.mem_vars_hom hAB) ht

theorem update (h : s.IsOver A) (hAB : A ⊆ B) {t v : Tensor} (ht : t.IsOver B) (hv : s.update t = .ok v) :
    v.IsOver B ∧ v.expand = v :=
  h.isPolynomial.update_isOver (fun _ => h.mem_vars_hom hAB) ht hv

/-- **An expanded tensor in other symbols stays as it is.** -/
theorem update_eq (h : s.IsOver A) {t : Tensor} (ht : t.IsOver Aᶜ) (hexpanded : t.expand = t) :
    s.update t = .ok t := by
  have happlied : t.Related (Maps (AlgHom.id ℚ Poly)) (t.map s.applyScalar) := by
    refine (Tensor.isOver_iff.mp ht).map_right ?_
    rintro a _ ⟨rfl, ha⟩
    have hdenotes := Scalar.denotes_poly ha.isPolynomial
    have himage := applyScalar_denotes h.isPolynomial hdenotes
    rw [h.hom_eq_self ha.symbols] at himage
    exact Scalar.maps_of_denotes hdenotes himage
  have hsame : t.expand.Related Eq (t.map s.applyScalar).expand := happlied.map fun _ _ hab => hab.expand_eq
  unfold Substitution.update Substitution.apply
  rw [h.guard]
  exact congrArg Except.ok (hsame.ext.trans hexpanded)

end IsOver

end Substitution

/-! ## Values -/

/-- Equal values in given symbols. -/
structure Value.SameOver (A : Set String) (v w : Value) : Prop where
  related : Value.Related (Same (Scalar.IsOver A)) v w
  substitution : ∀ s, v = .substitution s → s.IsOver A

/-- A rational number, a tensor in given symbols, a substitution of polynomials in these symbols for some of
them, a list of labels or nothing. -/
def Value.Over (A : Set String) (v : Value) : Prop := Value.SameOver A v v

namespace Value

variable {a a' b b' v : Value}

/-- An outcome that is not a substitution. -/
theorem sameOver_of_quantity {x y : Evaluation Value}
    (h : Agree (Value.Related (Same (Scalar.IsOver A))) x y) (hq : ∀ v, x = .ok v → ∃ q, v = .quantity q) :
    Agree (SameOver A) x y := by
  cases x with
  | error e => cases y <;> exact h
  | ok v =>
      cases y with
      | error e => exact h
      | ok w =>
          obtain ⟨q, rfl⟩ := hq v rfl
          exact ⟨h, fun s hs => (nomatch hs)⟩

theorem ofShaped_quantity {result : Except ShapeError Tensor} (h : ofShaped result = .ok v) :
    ∃ q, v = .quantity q := by
  obtain ⟨t, -, rfl⟩ := map_eq_ok (mapError_eq_ok h)
  exact ⟨_, rfl⟩

theorem add_quantity (h : a.add b = .ok v) : ∃ q, v = .quantity q := by
  unfold add at h
  split at h
  · cases h
    exact ⟨_, rfl⟩
  · exact ofShaped_quantity h
  · cases h

theorem neg_quantity (h : a.neg = .ok v) : ∃ q, v = .quantity q := by
  unfold neg at h
  split at h
  · cases h
    exact ⟨_, rfl⟩
  · cases h
    exact ⟨_, rfl⟩
  · cases h

theorem mul_quantity (h : a.mul b = .ok v) : ∃ q, v = .quantity q := by
  unfold mul at h
  split at h
  · cases h
    exact ⟨_, rfl⟩
  · cases h
    exact ⟨_, rfl⟩
  · cases h
    exact ⟨_, rfl⟩
  · obtain ⟨t, -, rfl⟩ := map_eq_ok (mapError_eq_ok h)
    exact ⟨_, rfl⟩
  · cases h

theorem div_quantity (h : a.div b = .ok v) : ∃ q, v = .quantity q := by
  unfold div at h
  split at h
  · split at h
    · cases h
    · exact mul_quantity h
  · cases h

theorem operation_quantity {op : Operation} (h : op.apply a b = .ok v) : ∃ q, v = .quantity q := by
  cases op with
  | add => exact add_quantity h
  | sub =>
      obtain ⟨n, -, h⟩ := bind_eq_ok h
      exact add_quantity h
  | mul => exact mul_quantity h
  | div => exact div_quantity h

theorem expand_quantity (h : Builtin.expand.apply [a] = .ok v) : ∃ q, v = .quantity q := by
  cases a with
  | quantity q =>
      cases h
      exact ⟨_, rfl⟩
  | _ => cases h

theorem sameOver_isTensorial : IsTensorial (Same (Scalar.IsOver A)) (SameOver A) where
  rational q := ⟨.rational q, fun _ hs => (nomatch hs)⟩
  tensor h := ⟨.tensor h, fun _ hs => (nomatch hs)⟩
  labels ls := ⟨.labels ls, fun _ hs => (nomatch hs)⟩
  asTensor h := h.related.asTensor
  asLabels h := h.related.asLabels
  neg h := sameOver_of_quantity h.related.neg fun _ => neg_quantity
  add h h' := sameOver_of_quantity (h.related.add h'.related) fun _ => add_quantity
  expand h := sameOver_of_quantity h.related.expand fun _ => expand_quantity

theorem forall₂_eq_of_sameOver {vs ws : List Value} (h : List.Forall₂ (SameOver A) vs ws) : ws = vs :=
  forall₂_eq_of_same (h.imp fun _ _ hvw => hvw.related)

theorem over_tensor {t : Tensor} : (Value.tensor t).Over A ↔ t.IsOver A := by
  constructor
  · rintro ⟨⟨⟩, -⟩
    rename_i h
    exact Tensor.isOver_iff.mpr h
  · exact fun h => ⟨.tensor (Tensor.isOver_iff.mp h), fun s hs => (nomatch hs)⟩

theorem over_substitution {s : Substitution} (h : s.IsOver A) : (Value.substitution s).Over A :=
  ⟨.substitution h.isPolynomial, fun _ hs => Value.substitution.inj hs ▸ h⟩

end Value

/-! ## Functions -/

namespace Builtin

variable {v w : Value}

theorem solveHomogeneous_over (h : v.Over A) (hw : solveHomogeneous v = .ok w) : w.Over A := by
  obtain ⟨hv, -⟩ := h
  cases hv with
  | rational q =>
      obtain ⟨s, hs, rfl⟩ := map_eq_ok (mapError_eq_ok hw)
      refine Value.over_substitution (Substitution.homogeneous_isOver (fun x hx => ?_) hs)
      rw [List.mem_singleton.mp hx]
      exact Scalar.rational_isOver q
  | tensor h =>
      obtain ⟨s, hs, rfl⟩ := map_eq_ok (mapError_eq_ok hw)
      exact Value.over_substitution (Substitution.homogeneous_isOver (Tensor.isOver_iff.mpr h) hs)
  | substitution _ => cases hw
  | labels ls => cases hw
  | nothing => cases hw

theorem substituteIn_over {s : Value} (hv : v.Over A) (hs : s.Over A) (hw : substituteIn v s = .ok w) :
    w.Over A := by
  obtain ⟨s', hs', happlied⟩ := bind_eq_ok hw
  have hover : s'.IsOver A := by
    cases s with
    | substitution t =>
        obtain rfl : t = s' := Except.ok.inj hs'
        exact hs.substitution t rfl
    | _ => cases hs'
  have happly : ∀ q, s'.apply q = .ok (q.map s'.applyScalar) := by
    intro q
    rw [Substitution.apply, hover.guard]
  obtain ⟨hv, -⟩ := hv
  cases hv with
  | rational q =>
      obtain ⟨a, ha, rfl⟩ := map_eq_ok (mapError_eq_ok happlied)
      rw [happly] at ha
      cases ha
      show (Value.scalar (s'.applyScalar (.rational q))).Over A
      rw [Substitution.applyScalar_rational hover.isPolynomial]
      exact Value.sameOver_isTensorial.rational q
  | tensor h =>
      obtain ⟨a, ha, rfl⟩ := map_eq_ok (mapError_eq_ok happlied)
      rw [happly] at ha
      cases ha
      exact Value.over_tensor.mpr (hover.map_applyScalar Set.Subset.rfl (Tensor.isOver_iff.mpr h))
  | substitution _ => cases happlied
  | labels ls => cases happlied
  | nothing => cases happlied

theorem mapM_asSubstitution_isOver {context : String} : ∀ {vs : List Value} {ss : List Substitution},
    (∀ v ∈ vs, v.Over A) → vs.mapM (fun v => v.asSubstitution context) = .ok ss → ∀ s ∈ ss, s.IsOver A
  | [], ss, _, h, s, hs => by
    cases h
    cases hs
  | v :: vs, ss, hv, h, s, hs => by
    rw [List.forall_mem_cons] at hv
    rw [List.mapM_cons] at h
    obtain ⟨s', hs', h⟩ := bind_eq_ok h
    obtain ⟨ss', hss', h⟩ := bind_eq_ok h
    cases h
    rcases List.mem_cons.mp hs with rfl | hs
    · cases v with
      | substitution t =>
          obtain rfl : t = s := Except.ok.inj hs'
          exact hv.1.substitution t rfl
      | _ => cases hs'
    · exact mapM_asSubstitution_isOver hv.2 hss' s hs

/-- **Every function on values in given symbols has a value in these symbols.** -/
theorem apply_over (f : Builtin) {vs : List Value} (h : ∀ v ∈ vs, v.Over A) (hw : f.apply vs = .ok w) :
    w.Over A := by
  have hvs : List.Forall₂ (Value.SameOver A) vs vs := List.forall₂_same.mpr h
  have hagree : Agree (Value.SameOver A) (f.apply vs) (f.apply vs) → w.Over A := by
    rw [hw]
    exact id
  cases f with
  | homogeneousSystem =>
      match vs, h with
      | [v], h => exact solveHomogeneous_over (h v List.mem_cons_self) hw
      | [], _ => cases hw
      | _ :: _ :: _, _ => cases hw
  | substitute =>
      match vs, h with
      | [v, s], h =>
        exact substituteIn_over (h v List.mem_cons_self) (h s (List.mem_cons_of_mem _ List.mem_cons_self)) hw
      | [], _ => cases hw
      | [_], _ => cases hw
      | _ :: _ :: _ :: _, _ => cases hw
  | mergeSubstitutions =>
      obtain ⟨ss, hss, hw⟩ := bind_eq_ok hw
      obtain ⟨s, hs, rfl⟩ := map_eq_ok (mapError_eq_ok hw)
      exact Value.over_substitution (Substitution.merge_isOver (mapM_asSubstitution_isOver h hss) hs)
  | multiply =>
      refine hagree (Value.combine_agree (fun _ _ _ _ ha hb => ?_) "Multiply" hvs)
      exact Value.sameOver_of_quantity (ha.related.mul hb.related) fun _ => Value.mul_quantity
  | scale =>
      refine hagree (Value.sameOver_of_quantity
        (apply_related rfl (hvs.imp fun _ _ hv => hv.related)) fun v hv => ?_)
      match vs with
      | [_, factor] =>
        cases factor with
        | quantity q =>
            cases q with
            | scalar s =>
                obtain ⟨t, -, hv⟩ := bind_eq_ok hv
                cases hv
                exact ⟨_, rfl⟩
            | tensor t => cases hv
        | _ => cases hv
      | [] => cases hv
      | [_] => cases hv
      | _ :: _ :: _ :: _ => cases hv
  | add | subtract | renameIndices | symmetrize | antiSymmetrize | blockSymmetrize | exchangeSymmetrize
  | expand => exact hagree (apply_tensorial Value.sameOver_isTensorial rfl hvs)

end Builtin

/-! ## Programs -/

/-- **Every expression on values in given symbols has a value in these symbols.** -/
theorem Expression.evaluate_over {vs : Bindings} (h : ∀ b ∈ vs, b.2.Over A) (e : Expression) {v : Value}
    (hv : e.evaluate vs = .ok v) : v.Over A := by
  have hpaired : Bindings.Paired (Value.SameOver A) vs vs := List.forall₂_same.mpr fun b hb => ⟨rfl, h b hb⟩
  have hagree := evaluate_paired (F := .all) Value.sameOver_isTensorial hpaired
    (fun op _ _ _ _ _ _ _ ha hb => Value.sameOver_of_quantity
      (operation_related op ha.2.2.related hb.2.2.related) fun _ => Value.operation_quantity)
    (fun f _ as bs hab => by
      obtain rfl := Value.forall₂_eq_of_sameOver hab
      exact Agree.self fun w hw => f.apply_over ((@List.forall₂_same _ (Value.SameOver A) _).mp hab) hw)
    e e.isIn_all
  rw [hv] at hagree
  exact hagree

/-- **Every program on tensors in given symbols has values in these symbols.** -/
theorem Interpreter.evaluate_over {vs : Bindings} (h : ∀ b ∈ vs, b.2.Over A) {source : String} {v : Value}
    (hv : ((start vs).evaluate source).1 = .ok v) : v.Over A :=
  evaluate_invariant (P := Value.Over A) (fun _ hvs e _ hv => e.evaluate_over hvs hv)
    ⟨.nothing, fun _ hs => (nomatch hs)⟩ h hv

end TensorEquations
