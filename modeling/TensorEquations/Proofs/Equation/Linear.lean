import TensorEquations.Proofs.Equation.Advance

/-!
# Linear equations

While linear equations are solved one after the other, the tensors of the coefficients are images of the
original ones under the composition of all substitutions so far.

* `Tensor.Related.isAffine` — images of affine tensors.
* `Registry.Reduces` — every finished tensor is the image of an original one, and affine in some symbols; all
  other symbols are fixed.
* `Registry.Reduces.solve` — **a linear equation is solved and keeps this, or it vanishes nowhere.** Its
  substitution makes it vanish, and changes no value where it vanishes already.
* `Registry.Reduces.complete` — a coefficient finished with its original tensor.
-/

namespace TensorEquations

open MvPolynomial
open Scalar (Maps Same IsAffine)

theorem pullback_comp (φ χ : Poly →ₐ[ℚ] Poly) (ρ : String → ℚ) :
    pullback (χ.comp φ) ρ = pullback φ (pullback χ ρ) := by
  funext name
  exact eval_algHom χ ρ (φ (X name))

namespace Tensor

variable {t u : Tensor} {A B : Set String} {φ : Poly →ₐ[ℚ] Poly}

/-- The image of an affine tensor under a homomorphism that keeps affine polynomials. -/
theorem Related.isAffine (h : t.Related (Maps φ) u) (ht : t.Related (Same (IsAffine A)) t)
    (hφ : ∀ p : Poly, p.totalDegree ≤ 1 → (∀ n ∈ p.vars, n ∈ A) →
      (φ p).totalDegree ≤ 1 ∧ ∀ n ∈ (φ p).vars, n ∈ A) : u.Related (Same (IsAffine A)) u := by
  refine ⟨rfl, rfl, fun i => ⟨rfl, ?_⟩⟩
  have hmaps := h.components i
  have haffine := (ht.components i).2
  obtain ⟨hdegree, hsymbols⟩ := hφ _ haffine.degree haffine.symbols
  exact hmaps.denotes_right.isAffine hdegree hsymbols

theorem Related.isAffine_mono (h : t.Related (Same (IsAffine A)) u) (hAB : A ⊆ B) :
    t.Related (Same (IsAffine B)) u :=
  h.mono fun _ _ ⟨he, ha⟩ => ⟨he, ha.isPolynomial, ha.degree, fun n hn => hAB (ha.symbols n hn)⟩

theorem Related.isAffine_inter (h : t.Related (Same (IsAffine A)) t) (h' : t.Related (Same (IsAffine B)) t) :
    t.Related (Same (IsAffine (A ∩ B))) t :=
  ⟨rfl, rfl, fun i => ⟨rfl, (h.components i).2.isPolynomial, (h.components i).2.degree,
    fun n hn => ⟨(h.components i).2.symbols n hn, (h'.components i).2.symbols n hn⟩⟩⟩

/-- A tensor whose symbols are fixed is its own image. -/
theorem Related.maps_of_fixed (h : t.Related (Same (IsAffine A)) t) (hφ : ∀ n ∈ A, φ (X n) = X n) :
    t.Related (Maps φ) t := by
  refine h.mono ?_
  rintro a _ ⟨rfl, ha⟩
  refine ⟨ha.isPolynomial, ha.isPolynomial, ?_⟩
  have hfixed : (φ : Poly →+* Poly) a.poly = (RingHom.id Poly) a.poly := by
    refine hom_congr_vars ?_ (fun n hn _ => hφ n (ha.symbols n hn)) rfl
    ext c
    simp
  exact hfixed.symm

end Tensor

namespace Registry

variable {T : CoefficientKey → Option Tensor} {A : Set String} {φ : Poly →ₐ[ℚ] Poly} {r r' : Registry}
  {k : CoefficientKey} {e : Equation} {E : Expression} {q : Quantity}

/-- The finished tensors are the images of original ones, and affine in the symbols of a set. The homomorphism
fixes all other symbols, and the original tensors of open coefficients have no others. -/
structure Reduces (T : CoefficientKey → Option Tensor) (A : Set String) (φ : Poly →ₐ[ℚ] Poly)
    (r : Registry) : Prop where
  isPolynomial : r.IsPolynomial
  free : ∀ k, r.isLocked k = false
  finished : ∀ k, r.isFinished k = true → ∃ t t', T k = some t ∧ r.tensor? k = some t' ∧
    t.Related (Maps φ) t' ∧ t'.Related (Same (IsAffine A)) t'
  fixed : ∀ n, n ∉ A → φ (X n) = X n
  fresh : ∀ k t, T k = some t → r.isFinished k = false → t.Related (Same (IsAffine Aᶜ)) t

namespace Reduces

theorem empty (hT : ∀ k t, T k = some t → ∃ B, t.Related (Same (IsAffine B)) t) :
    Registry.empty.Reduces T ∅ (AlgHom.id ℚ Poly) where
  isPolynomial := isPolynomial_empty
  free _ := rfl
  finished _ hf := nomatch hf
  fixed _ _ := rfl
  fresh k t hk _ := by
    obtain ⟨B, hB⟩ := hT k t hk
    exact hB.isAffine_mono fun n _ => Set.notMem_empty n

theorem isBlocked (h : r.Reduces T A φ) (e : Equation) : e.isBlocked r = false :=
  List.any_eq_false.mpr fun k _ => by simp [h.free k]

theorem image (h : r.Reduces T A φ) (hready : e.isReady r = true) : e.Image φ T r.tensor? := by
  intro k hk
  obtain ⟨t, t', ht, ht', himage, -⟩ := h.finished k (List.all_eq_true.mp hready k hk)
  exact ⟨t, t', ht, ht', himage⟩

theorem affine (h : r.Reduces T A φ) (hready : e.isReady r = true) :
    Bindings.Related (Same (IsAffine A)) (r.bindings e) (r.bindings e) := by
  refine Equation.values_related fun k hk => ?_
  obtain ⟨-, t', -, ht', -, haffine⟩ := h.finished k (List.all_eq_true.mp hready k hk)
  rw [ht']
  exact .some haffine

/-- A step that touches neither tensors nor locks and finishes nothing. -/
theorem congr (h : r.Reduces T A φ) (hpolynomial : r'.IsPolynomial) (ht : ∀ k, r'.tensor? k = r.tensor? k)
    (hf : ∀ k, r'.isFinished k = r.isFinished k) (hl : ∀ k, r'.isLocked k = r.isLocked k) :
    r'.Reduces T A φ where
  isPolynomial := hpolynomial
  free k := (hl k).trans (h.free k)
  finished k hfinished := by
    rw [ht]
    exact h.finished k ((hf k).symm.trans hfinished)
  fixed := h.fixed
  fresh k t hk hunfinished := h.fresh k t hk ((hf k).symm.trans hunfinished)

theorem register (h : r.Reduces T A φ) (k : CoefficientKey) : (r.register k).Reduces T A φ := by
  refine h.congr (h.isPolynomial.advances_register k).isPolynomial (fun j => ?_) (fun j => ?_) fun j => ?_
  · exact apply_find?_register (·.bind Coefficient.tensor) rfl
  · exact apply_find?_register (·.any Coefficient.isFinished) rfl
  · exact apply_find?_register (·.any Coefficient.isLocked) rfl

theorem observe (h : r.Reduces T A φ) (k : CoefficientKey) (o : Observer) :
    (r.modify k fun c => c.observe o).Reduces T A φ := by
  refine h.congr (h.isPolynomial.advances_modify (Coefficient.observe_key · o) fun c hc =>
    ⟨hc.observe o, hc.moves rfl rfl⟩).isPolynomial (fun j => ?_) (fun j => ?_) fun j => ?_
  all_goals
    simp only [tensor?, isFinished, isLocked, find?_modify (Coefficient.observe_key · o)]
    split <;> cases r.find? j <;> rfl

theorem observeAll : ∀ (ks : List CoefficientKey) {r : Registry} (o : Observer), r.Reduces T A φ →
    (r.observeAll o ks).Reduces T A φ
  | [], _, _, h => h
  | k :: ks, _, o, h => observeAll ks o ((h.register k).observe k o)

/-- The value of a linear body. -/
theorem evaluate (h : r.Reduces T A φ) (hready : e.isReady r = true) (hE : E.isIn .linear = true)
    (hvalue : E.evaluate (e.values T) = .ok (.quantity q)) :
    ∃ q', E.evaluate (r.bindings e) = .ok (.quantity q') ∧
      Value.Related (Same (IsAffine A)) (.quantity q') (.quantity q') := by
  have hagree := Expression.evaluate_maps (h.image hready).values (Expression.isIn_polynomial hE)
  obtain ⟨v, hv, hrelated⟩ := hagree.exists_ok hvalue
  obtain ⟨q', rfl⟩ := hrelated.quantity.mpr ⟨q, rfl⟩
  exact ⟨q', hv, E.evaluate_affine (h.affine hready) hE hv⟩

/-- A substitution in solved form taken by every coefficient. -/
theorem takes (h : r.Reduces T A φ) {ps : List Poly} {pairs : List (String × Scalar)}
    (hform : SolvedForm ps pairs) (hA : ∀ p ∈ ps, ∀ n ∈ p.vars, n ∈ A)
    (htakes : Pointwise (Coefficient.Takes (.ofSolved pairs)) r r') :
    r'.Reduces T A ((Substitution.ofSolved pairs).hom.comp φ) := by
  have hpolynomial := hform.ofSolved_isPolynomial
  refine ⟨(h.isPolynomial.advances_takes hpolynomial htakes).isPolynomial, fun k => ?_, fun k hf => ?_,
    fun n hn => ?_, fun k t ht hf => h.fresh k t ht ?_⟩
  · rw [htakes.isLocked]
    exact h.free k
  · rw [htakes.isFinished] at hf
    obtain ⟨o, t, ho, ht, himage, haffine⟩ := h.finished k hf
    obtain ⟨c, hc, hfinished⟩ := exists_of_isFinished hf
    obtain ⟨c', hc', htaken⟩ := htakes.find? hc
    have hfree := (isLocked_of_find? hc).symm.trans (h.free k)
    obtain ⟨v, hv, himage'⟩ := Substitution.update_related hpolynomial himage
    obtain ⟨w, hw, hmoved⟩ := himage.isPolynomial.update hpolynomial
    obtain rfl := Except.ok.inj (hw.symm.trans hv)
    refine ⟨o, w, ho, ?_, himage', hmoved.isAffine haffine fun p hp hvars => ?_⟩
    · rw [tensor?_of_find? hc'] 
      exact htaken.tensor hfinished hfree ((tensor?_of_find? hc).symm.trans ht) hw
    · refine ⟨hform.totalDegree_hom_le_one hp, fun n hn => ?_⟩
      rcases hform.mem_vars_hom hn with hn | ⟨p', hp', hn⟩
      · exact hvars n hn
      · exact hA p' hp' n hn
  · rw [AlgHom.comp_apply, h.fixed n hn]
    refine hform.hom_eq_self fun p hp m hm hmem => hn ?_
    rw [vars_X, Finset.mem_singleton] at hmem
    exact hmem ▸ hA p hp m hm
  · rw [← htakes.isFinished]
    exact hf

/-- A coefficient finished with its original tensor, whose symbols no other original tensor has. -/
theorem complete (h : r.Reduces T A φ) {B : Set String} {t : Tensor} {c c' : Coefficient}
    (hc : r.find? k = some c) (hcomplete : c.complete t = .ok c') (hlabels : t.labels = k.labels)
    (ht : T k = some t) (haffine : t.Related (Same (IsAffine B)) t)
    (hdisjoint : ∀ j u, j ≠ k → T j = some u → u.Related (Same (IsAffine Bᶜ)) u) :
    (r.put c').Reduces T (A ∪ B) φ := by
  obtain ⟨hkey, hunfinished, hfinished, hlocked, -⟩ := Coefficient.complete_frame hcomplete
  have hk : c'.key = k := hkey.trans (key_of_find? hc)
  have htensor := Coefficient.complete_tensor hcomplete
    (hlabels.trans (congrArg CoefficientKey.labels (key_of_find? hc).symm))
  have hput : (r.put c').find? k = some c' := by
    rw [find?_put, if_pos hk.symm, hc]
    rfl
  have hother : ∀ j, j ≠ k → (r.put c').find? j = r.find? j := by
    intro j hj
    rw [find?_put, hk, if_neg hj]
  have hfresh := h.fresh k t ht ((isFinished_of_find? hc).trans hunfinished)
  have hpolynomial : t.IsPolynomial := (Tensor.related_same (P := Scalar.IsPolynomial)).mp
    (haffine.mono fun _ _ ⟨he, ha⟩ => ⟨he, ha.isPolynomial⟩)
  refine ⟨?_, fun j => ?_, fun j hj => ?_, fun n hn => h.fixed n fun hmem => hn (.inl hmem),
    fun j u hu hj => ?_⟩
  · exact (h.isPolynomial.advances_put hc hkey
      ((isPolynomial_iff.mp h.isPolynomial k c hc).complete hpolynomial hcomplete)
      (Coefficient.moves_of_unfinished hunfinished)).isPolynomial
  · by_cases hjk : j = k
    · rw [hjk, isLocked_of_find? hput, hlocked, ← isLocked_of_find? hc]
      exact h.free k
    · rw [isLocked, hother j hjk]
      exact h.free j
  · by_cases hjk : j = k
    · rw [hjk]
      refine ⟨t, t, ht, (tensor?_of_find? hput).trans htensor, hfresh.maps_of_fixed h.fixed,
        haffine.isAffine_mono Set.subset_union_right⟩
    · rw [isFinished, hother j hjk] at hj
      obtain ⟨o, u, ho, hu, himage, haffine⟩ := h.finished j hj
      refine ⟨o, u, ho, ?_, himage, haffine.isAffine_mono Set.subset_union_left⟩
      rw [tensor?, hother j hjk]
      exact hu
  · have hjk : j ≠ k := by
      rintro rfl
      rw [isFinished_of_find? hput, hfinished] at hj
      cases hj
    rw [isFinished, hother j hjk] at hj
    rw [Set.compl_union]
    exact (h.fresh j u hu hj).isAffine_inter (hdisjoint j u hjk hu)

/-- **A linear equation is solved, or it vanishes nowhere.** The values after its substitution are those of
solutions, and all solutions are among them. -/
theorem solve (h : r.Reduces T A φ) (hready : e.isReady r = true) (hgiven : e.given = none)
    (hbody : e.body? = some E) (hE : E.isIn .linear = true)
    (hvalue : E.evaluate (e.values T) = .ok (.quantity q)) :
    (∃ s χ, (r.solve e).2 = .ok s ∧ Pointwise (Coefficient.Takes s) r (r.solve e).1 ∧
      (r.solve e).1.Reduces T A (AlgHom.comp χ φ) ∧ (∀ ρ, e.VanishesAt r.tensor? (pullback χ ρ)) ∧
      ∀ ρ, e.VanishesAt r.tensor? ρ → pullback χ ρ = ρ) ∨
    ∃ cause, (r.solve e).2 = .error cause ∧ (r.solve e).1 = r ∧ ∀ ρ, ¬ e.VanishesAt r.tensor? ρ := by
  have hfree := h.isBlocked e
  obtain ⟨q', hq', haffine⟩ := h.evaluate hready hE hvalue
  have hcomponents : ∀ x ∈ (Value.quantity q').components, x.IsAffine A :=
    fun x hx => (List.forall₂_same.mp haffine.components x hx).2
  have hpolynomial := E.evaluate_isPolynomial (h.isPolynomial.bindings e) hq'
  have hvanishes : ∀ ρ, e.VanishesAt r.tensor? ρ ↔ (Value.quantity q').VanishesAt ρ := by
    intro ρ
    constructor
    · rintro ⟨E', v, hE', hv, hρ⟩
      obtain rfl := Option.some.inj (hbody.symm.trans hE')
      obtain rfl := Except.ok.inj (hq'.symm.trans hv)
      exact hρ
    · exact fun hρ => ⟨E, _, hbody, hq', hρ⟩
  have hprogram : ((Interpreter.start (r.bindings e)).evaluate e.reading.expression).1 =
      E.evaluate (r.bindings e) >>= Builtin.solveHomogeneous := Equation.evaluate_program hbody
  rw [hq'] at hprogram
  simp only [hvanishes]
  rcases Builtin.solveHomogeneous_affine hpolynomial fun x hx => (hcomponents x hx).degree with
    ⟨w, hw⟩ | ⟨⟨error, herror⟩, hno⟩
  · obtain ⟨hquantity, pairs, rfl, hform⟩ := Builtin.solveHomogeneous_ok hpolynomial hw
    have hok := h.isPolynomial.solve_isOk hfree hready hgiven (hprogram.trans hw)
    rcases h.isPolynomial.solve hfree hgiven with ⟨_, herror, -⟩ | ⟨s, hs, -, -, htakes, -⟩
    · exact nomatch herror.symm.trans hok
    obtain rfl := Except.ok.inj (hok.symm.trans hs)
    refine .inl ⟨_, _, hok, htakes, h.takes hform (fun p hp => ?_) htakes, hform.vanishesAt hquantity,
      fun ρ hρ => hform.pullback_eq hρ⟩
    obtain ⟨x, hx, rfl⟩ := List.mem_map.mp hp
    exact (hcomponents x hx).symbols
  · rcases h.isPolynomial.solve hfree hgiven with ⟨cause, hcause, hsame⟩ | ⟨s, -, -, -, -, hsolved⟩
    · exact .inr ⟨cause, hcause, hsame, hno⟩
    · exact nomatch (herror.symm.trans (hprogram.symm.trans hsolved))

end Reduces

end Registry

end TensorEquations
