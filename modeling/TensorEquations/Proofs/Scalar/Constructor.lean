import TensorEquations.Proofs.Scalar.Formula.Argument

/-!
# Constructor texts are read back

The constructor text of a scalar in normal form stands for the scalar itself: evaluating its calls puts the
same products and sums together again.

* `collectFactors_of_isOrdered`, `collectTerms_of_isSum` — what is collected already stays as it is.
* `Scalar.product_spelled`, `Scalar.sum_displayed` — **the product of the parts of a term and the sum of the
  terms as they are displayed.**
* `Scalar.ofText_constructor` — **the constructor text of a scalar is read as that scalar.**
-/

namespace TensorEquations

open Formula (StandsFor IsFunction)

/-! ## Collecting again -/

theorem insertFactor_last {f : Factor Base} : ∀ {gs : List (Factor Base)},
    (∀ g ∈ gs, g.base.order f.base = .lt) → insertFactor f gs = gs ++ [f]
  | [], _ => rfl
  | g :: gs, h => by
    obtain ⟨hg, hgs⟩ := List.forall_mem_cons.mp h
    rw [insertFactor, Std.OrientedCmp.gt_of_lt hg]
    simp only [insertFactor_last hgs, List.cons_append]

theorem collectFactors_of_isOrdered {fs : List (Factor Base)} (h : IsOrdered fs) : collectFactors fs = fs := by
  unfold collectFactors
  suffices ∀ front : List (Factor Base), IsOrdered (front ++ fs) →
      fs.foldl (fun product f => insertFactor f product) front = front ++ fs from this [] h
  clear h
  induction fs with
  | nil => exact fun front _ => (List.append_nil front).symm
  | cons f fs ih =>
      intro front h
      have hlast : ∀ g ∈ front, g.base.order f.base = .lt :=
        fun g hg => (List.pairwise_append.mp h).2.2 g hg f List.mem_cons_self
      rw [List.foldl_cons, insertFactor_last hlast]
      have happend : front ++ [f] ++ fs = front ++ f :: fs := by simp
      rw [ih (front ++ [f]) (by rwa [happend]), happend]

theorem insertTerm_last {t : Term Base} : ∀ {us : List (Term Base)},
    (∀ u ∈ us, u.order t = .lt) → insertTerm t us = us ++ [t]
  | [], _ => rfl
  | u :: us, h => by
    obtain ⟨hu, hus⟩ := List.forall_mem_cons.mp h
    rw [insertTerm, Std.OrientedCmp.gt_of_lt hu]
    simp only [insertTerm_last hus, List.cons_append]

theorem filter_vanishes {ts : List (Term Base)} (h : ∀ t ∈ ts, t.IsNormal) :
    ts.filter (fun t => !t.coefficient.vanishes) = ts := by
  rw [List.filter_eq_self]
  intro t ht
  obtain ⟨q, hq, hc⟩ := (h t ht).exact
  rw [hc, Bool.not_eq_true', Bool.eq_false_iff, ne_eq, Number.exact_vanishes]
  exact hq

theorem collectTerms_of_isSum {ts : List (Term Base)} (h : IsSum ts) : collectTerms ts = ts := by
  unfold collectTerms
  rw [filter_vanishes h.normal]
  suffices ∀ front : List (Term Base), (front ++ ts).Pairwise (fun t u => t.order u = .lt) →
      ts.foldl (fun sum t => insertTerm t sum) front = front ++ ts from this [] h.ordered
  clear h
  induction ts with
  | nil => exact fun front _ => (List.append_nil front).symm
  | cons t ts ih =>
      intro front h
      have hlast : ∀ u ∈ front, u.order t = .lt :=
        fun u hu => (List.pairwise_append.mp h).2.2 u hu t List.mem_cons_self
      rw [List.foldl_cons, insertTerm_last hlast]
      have happend : front ++ [t] ++ ts = front ++ t :: ts := by simp
      rw [ih (front ++ [t]) (by rwa [happend]), happend]

/-- Two terms that are displayed the other way round are put in order again. -/
theorem collectTerms_displayed {ts : List (Term Base)} (h : IsSum ts) : collectTerms (displayed ts) = ts := by
  unfold displayed
  split
  · rename_i c f d
    split
    · have hlt := (List.pairwise_cons.mp h.ordered).1 ⟨d, []⟩ List.mem_cons_self
      unfold collectTerms
      rw [filter_vanishes fun t ht => h.normal t ((List.Perm.swap _ _ _).mem_iff.mp ht)]
      simp only [List.foldl_cons, List.foldl_nil, insertTerm, hlt]
    · exact collectTerms_of_isSum h
  · exact collectTerms_of_isSum h

namespace Scalar

/-! ## Powers -/

theorem ofFactor_of_notGroup {f : Factor Base} (h : ∀ ts, f ≠ ⟨.group ts, 1⟩) : ofFactor f = ⟨[⟨1, [f]⟩]⟩ := by
  unfold ofFactor
  split
  · exact absurd rfl (h _)
  · rfl

theorem ofFactor_of_ne_one {b : Base} {e : Int} (h : e ≠ 1) : ofFactor ⟨b, e⟩ = ⟨[⟨1, [⟨b, e⟩]⟩]⟩ :=
  ofFactor_of_notGroup fun _ heq => h (congrArg Factor.exponent heq)

/-- A power is no number, and as a product it is itself. -/
theorem ofFactor_spec {f : Factor Base} (h : f.base.IsNormal) :
    (ofFactor f).number? = none ∧ (ofFactor f).asProduct = (1, [f]) := by
  obtain ⟨b, e⟩ := f
  by_cases he : e = 1
  · subst he
    cases b with
    | symbol name => exact ⟨rfl, rfl⟩
    | group ts =>
        match ts, (Base.isNormal_group.mp h).1 with
        | ⟨c, []⟩ :: u :: ts, _ => exact ⟨rfl, rfl⟩
        | ⟨c, f :: fs⟩ :: u :: ts, _ => exact ⟨rfl, rfl⟩
  · rw [ofFactor_of_ne_one he]
    exact ⟨rfl, rfl⟩

theorem ofFactors_of_isReduced {t : Term Base} (h : t.IsReduced) (hne : t.factors ≠ []) :
    ofFactors t.coefficient t.factors = ⟨[t]⟩ := by
  obtain ⟨q, hq, hc⟩ := h.exact
  unfold ofFactors
  rw [hc]
  simp only [Number.isUndefined, Number.isZero, Bool.false_eq_true, if_false, beq_iff_eq, hq]
  split
  · rename_i hnil
    exact absurd hnil hne
  · rename_i ts hgroup
    exact absurd hgroup (h.notGroup ts)
  · rw [← hc]

theorem ofProduct_of_term {t : Term Base} (h : t.IsNormal) (hne : t.factors ≠ []) :
    ofProduct t.coefficient t.factors = ⟨[t]⟩ := by
  obtain ⟨q, hq, hc⟩ := h.exact
  have hfilter : t.factors.filter (·.exponent != 0) = t.factors := by
    rw [List.filter_eq_self]
    exact fun f hf => bne_iff_ne.mpr (h.exponent f hf)
  rw [hc, ofProduct_of_isExact fun f hf => (h.bases f hf).isExact, hfilter, ← hc,
    ofFactors_of_isReduced h.toIsReduced hne]

/-- A base raised to an exponent is the power. -/
theorem power_base {b : Base} (hb : b.IsNormal) {e : Int} (h0 : e ≠ 0) (h1 : e ≠ 1) :
    (ofFactor ⟨b, 1⟩).power (rational e) = ofFactor ⟨b, e⟩ := by
  obtain ⟨hnumber, hproduct⟩ := ofFactor_spec (f := ⟨b, 1⟩) hb
  have hterm : (⟨1, [⟨b, e⟩]⟩ : Term Base).IsNormal :=
    ⟨⟨⟨1, one_ne_zero, rfl⟩, List.pairwise_singleton _ _, by simpa using h0, by simp [h1]⟩, by simpa using hb⟩
  have hraise : raiseFactors e [⟨b, 1⟩] = [⟨b, e⟩] := by simp [raiseFactors]
  have hpow : (1 : Number).pow e = 1 := by
    simp [Number.pow, h0, Number.one_eq]
  simp only [power, number?_rational, Rat.den_intCast, Rat.num_intCast, if_true, Scalar.pow, h0, h1, if_false,
    hnumber, hproduct, hraise, hpow]
  rw [ofFactor_of_ne_one h1]
  exact ofProduct_of_term hterm (by simp)

/-! ## Products -/

/-- The numbers that a coefficient is written as in front of a product. -/
def spelledNumbers (q : Rat) : List Rat :=
  if q = 1 then [] else if q = -1 then [-1] else if q < 0 then [-1, -q] else [q]

theorem spelledNumbers_spec (q : Rat) :
    (spelledNumbers q).prod = q ∧ ∀ p ∈ spelledNumbers q, p ≠ 1 := by
  unfold spelledNumbers
  have hminus : (-1 : Rat) ≠ 1 := by decide
  split_ifs with h1 hneg hlt
  · simp [h1]
  · exact ⟨by simp [hneg], by simpa using hminus⟩
  · have hne : -q ≠ 1 := fun h => hneg (by rw [← h, neg_neg])
    exact ⟨by simp, by simpa [hne] using hminus⟩
  · simp [h1]

/-- The scalars that the parts of a term stand for. -/
def spelled (q : Rat) (fs : List (Factor Base)) : List Scalar :=
  (spelledNumbers q).map rational ++ fs.map ofFactor

theorem product_eq_multiply {xs : List Scalar} (hone : ∀ x ∈ xs, x ≠ 1) (hlength : 2 ≤ xs.length)
    (hpair : ∀ x y, xs = [x, y] → distribute? x y = none ∧ distribute? y x = none) :
    product xs = multiply xs := by
  have hfilter : xs.filter (· ≠ 1) = xs := by
    rw [List.filter_eq_self]
    exact fun x hx => decide_eq_true (hone x hx)
  unfold product
  rw [hfilter]
  rcases xs with _ | ⟨x, _ | ⟨y, _ | ⟨z, xs⟩⟩⟩
  · exact absurd hlength (by decide)
  · exact absurd hlength (by simp)
  · obtain ⟨hxy, hyx⟩ := hpair x y rfl
    simp only [hxy, hyx]
    rfl
  · rfl

theorem multiply_spelled (q : Rat) {fs : List (Factor Base)} (hbases : ∀ f ∈ fs, f.base.IsNormal)
    (hordered : IsOrdered fs) : multiply (spelled q fs) = ofProduct (.exact q) fs := by
  have hpower : ∀ f ∈ fs, (ofFactor f).asProduct = (1, [f]) := fun f hf => (ofFactor_spec (hbases f hf)).2
  have hexact : ∀ x ∈ spelled q fs, x.asProduct.1.isExact = true := by
    intro x hx
    rcases List.mem_append.mp hx with hx | hx
    · obtain ⟨p, -, rfl⟩ := List.mem_map.mp hx
      rw [rational_asProduct]
      rfl
    · obtain ⟨f, hf, rfl⟩ := List.mem_map.mp hx
      rw [hpower f hf]
      rfl
  have hnumber : ((spelled q fs).map (·.asProduct.1.value)).prod = q := by
    have hone : (fs.map ofFactor).map (·.asProduct.1.value) = fs.map fun _ => 1 := by
      rw [List.map_map]
      exact List.map_congr_left fun f hf => by simp [hpower f hf, Number.one_eq, Number.value]
    rw [spelled, List.map_append, List.prod_append, hone, List.map_map]
    simp [Function.comp_def, rational_asProduct, Number.value, (spelledNumbers_spec q).1]
  have hfactors : (spelled q fs).flatMap (·.asProduct.2) = fs := by
    have hnone : ((spelledNumbers q).map rational).flatMap (·.asProduct.2) = [] := by
      simp [List.flatMap_eq_nil_iff, rational_asProduct]
    rw [spelled, List.flatMap_append, hnone, List.nil_append, List.flatMap_map,
      List.flatMap_congr fun f hf => congrArg Prod.snd (hpower f hf)]
    exact List.flatMap_singleton' fs
  rw [multiply_eq hexact, hnumber, hfactors, collectFactors_of_isOrdered hordered]

/-- No part of a term is one. -/
theorem ne_one_of_mem_spelled {q : Rat} {fs : List (Factor Base)} (hbases : ∀ f ∈ fs, f.base.IsNormal)
    {x : Scalar} (hx : x ∈ spelled q fs) : x ≠ 1 := by
  rcases List.mem_append.mp hx with hx | hx
  · obtain ⟨p, hp, rfl⟩ := List.mem_map.mp hx
    exact rational_ne_one ((spelledNumbers_spec q).2 p hp)
  · obtain ⟨f, hf, rfl⟩ := List.mem_map.mp hx
    rintro he
    have hnumber := (ofFactor_spec (hbases f hf)).1
    rw [he] at hnumber
    cases hnumber

/-- Two parts of a term are not multiplied out: the power by itself would be a sum only in a term without
other powers and numbers. -/
theorem distribute?_spelled {t : Term Base} (h : t.IsNormal) (hne : t.factors ≠ []) {q : Rat} {x y : Scalar}
    (hxy : spelled q t.factors = [x, y]) : distribute? x y = none ∧ distribute? y x = none := by
  have hnone : ∀ f ∈ t.factors, (ofFactor f).number? = none := fun f hf => (ofFactor_spec (h.bases f hf)).1
  unfold spelled at hxy
  generalize spelledNumbers q = numbers at hxy
  rcases numbers with _ | ⟨p, _ | ⟨p', ps⟩⟩
  · have hmem : ∀ z ∈ [x, y], z.number? = none := by
      intro z hz
      rw [← hxy] at hz
      obtain ⟨f, hf, rfl⟩ := List.mem_map.mp hz
      exact hnone f hf
    exact ⟨distribute?_of_number?_eq_none (hmem x (by simp)) y,
      distribute?_of_number?_eq_none (hmem y (by simp)) x⟩
  · simp only [List.map_cons, List.map_nil, List.cons_append, List.nil_append, List.cons.injEq] at hxy
    obtain ⟨f, hfactors, hf⟩ := List.map_eq_singleton_iff.mp hxy.2
    have hsum : (ofFactor f).isSum = false := by
      rw [ofFactor_of_notGroup fun ts he => h.notGroup ts (by rw [hfactors, he])]
      rfl
    rw [← hf]
    exact ⟨distribute?_of_isSum_eq_false hsum x,
      distribute?_of_number?_eq_none (hnone f (by simp [hfactors])) x⟩
  · simp [hne] at hxy

/-- **The product of the parts of a term is the term.** -/
theorem product_spelled {t : Term Base} (h : t.IsNormal) {q : Rat} (hc : t.coefficient = .exact q)
    (hne : t.factors ≠ []) (hlength : 2 ≤ (spelled q t.factors).length) :
    product (spelled q t.factors) = ⟨[t]⟩ := by
  rw [product_eq_multiply (fun x hx => ne_one_of_mem_spelled h.bases hx) hlength
      fun x y hxy => distribute?_spelled h hne hxy,
    multiply_spelled q h.bases h.ordered, ← hc, ofProduct_of_term h hne]

/-! ## Sums -/

theorem sum_eq_ofTerms {xs : List Scalar} (hzero : ∀ x ∈ xs, x.isZero = false)
    (hsum : ∀ x ∈ xs, x.isSum = false) (hlength : 2 ≤ xs.length) : sum xs = ofTerms (xs.flatMap terms) := by
  have hfilter : xs.filter (!·.isZero) = xs := by
    rw [List.filter_eq_self]
    exact fun x hx => by rw [hzero x hx]; rfl
  have hsingle : xs.partition isSum = ([], xs) := by
    rw [List.partition_eq_filter_filter, List.filter_eq_nil_iff.mpr fun x hx => by simp [hsum x hx],
      List.filter_eq_self.mpr fun x hx => by simp [hsum x hx]]
  unfold sum
  rw [hfilter]
  rcases xs with _ | ⟨x, _ | ⟨y, xs⟩⟩
  · exact absurd hlength (by decide)
  · exact absurd hlength (by simp)
  · simp only [hsingle, List.flatMap_nil, List.append_nil]

/-- **The sum of the terms of a sum as they are displayed is the sum.** -/
theorem sum_displayed {ts : List (Term Base)} (h : IsSum ts) (hlength : 2 ≤ ts.length) :
    sum ((displayed ts).map fun t => ⟨[t]⟩) = ⟨ts⟩ := by
  have hterms : ∀ us : List (Term Base), (us.map fun t => (⟨[t]⟩ : Scalar)).flatMap terms = us := by
    intro us
    induction us with
    | nil => rfl
    | cons u us ih => rw [List.map_cons, List.flatMap_cons, ih]; rfl
  have hnormal : ∀ t ∈ displayed ts, t.IsNormal := fun t ht => h.normal t ((displayed_perm ts).mem_iff.mp ht)
  rw [sum_eq_ofTerms, hterms, ofTerms_eq hnormal, collectTerms_displayed h]
  · intro x hx
    obtain ⟨t, _, rfl⟩ := List.mem_map.mp hx
    rfl
  · intro x hx
    obtain ⟨t, _, rfl⟩ := List.mem_map.mp hx
    rfl
  · rwa [List.length_map, (displayed_perm ts).length_eq]

end Scalar

/-! ## Texts -/

/-- The constructor text of a base. -/
def Base.constructor : Base → String := Base.fold symbolConstructor sumConstructor

/-- Whether the integers in the text of a base are short enough. -/
def Base.isWritable : Base → Bool := Base.fold (fun _ => true) fun ts => ts.all Term.isWritable

/-- Whether the integers in the text of a term are short enough. -/
def Term.IsWritable (t : Term Base) : Prop :=
  t.coefficient.isWritable ∧ ∀ f ∈ t.factors, f.base.isWritable ∧ Text.isWritable f.exponent.natAbs

theorem Base.constructor_group (ts : List (Term Base)) :
    (Base.group ts).constructor = sumConstructor (ts.map (Term.map Base.constructor)) := by
  rw [constructor, Base.fold, Base.foldTerms_eq_map]

theorem Scalar.constructor_eq (s : Scalar) :
    s.constructor = sumConstructor (s.terms.map (Term.map Base.constructor)) := by
  rw [Scalar.constructor, Scalar.fold, Base.foldTerms_eq_map, Base.constructor]

theorem Term.isWritable_map_iff {t : Term Base} : (t.map Base.isWritable).isWritable ↔ t.IsWritable := by
  simp [Term.isWritable, Term.map, Term.IsWritable, Factor.map, List.all_eq_true]

theorem Base.isWritable_group {ts : List (Term Base)} :
    (Base.group ts).isWritable ↔ ∀ t ∈ ts, t.IsWritable := by
  rw [isWritable, Base.fold, Base.foldTerms_eq_map, List.all_map, List.all_eq_true]
  exact forall₂_congr fun t _ => Term.isWritable_map_iff

theorem Scalar.isWritable_iff {s : Scalar} : s.isWritable ↔ ∀ t ∈ s.terms, t.IsWritable := Base.isWritable_group

theorem isFunction_of_mem {name : String} (h : name ∈ ["Integer", "Rational", "Symbol", "Pow", "Mul", "Add"]) :
    IsFunction name := by
  simp only [List.mem_cons, List.not_mem_nil, or_false] at h
  rcases h with rfl | rfl | rfl | rfl | rfl | rfl <;> exact ⟨by decide, by decide, by decide⟩

theorem standsFor_integer {n : Int} (h : Text.isWritable n.natAbs) :
    StandsFor s!"Integer({n})".toList (.scalar (.rational n)) := by
  have htext : s!"Integer({n})" = callText "Integer" [toString n] := by
    rw [callText, String.intercalate_singleton]
    rfl
  rw [htext]
  refine StandsFor.call (isFunction_of_mem (by simp)) (by simp) (.cons (.integer h) .nil) ?_
  have hpart : Formula.integerPart (.scalar (.rational n)) = .ok n := by
    simp [Formula.integerPart, Scalar.number?_rational]
  simp only [Formula.applyConstructor, hpart]
  rfl

/-- **A number is read back.** -/
theorem standsFor_number {q : Rat} (h : (Number.exact q).isWritable) :
    StandsFor (Number.exact q).constructor.toList (.scalar (.rational q)) := by
  simp only [Number.isWritable, Bool.and_eq_true] at h
  by_cases hden : q.den = 1
  · have hvalue : Scalar.rational q = .rational q.num := by rw [Rat.coe_int_num_of_den_eq_one hden]
    rw [Number.constructor, if_pos hden, hvalue]
    exact standsFor_integer h.1
  · have htext : (Number.exact q).constructor = callText "Rational" [toString q.num, toString q.den] := by
      rw [Number.constructor, if_neg hden, callText, String.intercalate_cons_cons, String.intercalate_singleton]
      simp only [String.append_assoc]
      rfl
    rw [htext]
    refine StandsFor.call (isFunction_of_mem (by simp)) (by simp)
      (.cons (.integer h.1) (.cons (.natural h.2) .nil)) ?_
    have hpart : ∀ p : Rat, Formula.rationalPart (.scalar (.rational p)) = .ok p := by
      intro p
      simp [Formula.rationalPart, Scalar.number?_rational]
    have hquotient : Formula.quotientNumber q.num q.den = .exact q := by
      simp [Formula.quotientNumber, Rat.num_div_den]
    simp only [Formula.applyConstructor, hpart]
    show Except.ok (Scalar.number (Formula.quotientNumber q.num q.den)) = _
    rw [hquotient]
    rfl

/-- A power is read back, if its base is. -/
theorem standsFor_factor {f : Factor Base} (hbase : f.base.IsNormal) (hexponent : f.exponent ≠ 0)
    (hwritable : Text.isWritable f.exponent.natAbs)
    (h : StandsFor f.base.constructor.toList (.scalar (.ofFactor ⟨f.base, 1⟩))) :
    StandsFor (f.map Base.constructor).constructor.toList (.scalar (.ofFactor f)) := by
  obtain ⟨b, e⟩ := f
  by_cases he : e = 1
  · subst he
    exact h
  · have htext : (Factor.map Base.constructor ⟨b, e⟩).constructor =
        callText "Pow" [b.constructor, s!"Integer({e})"] := if_neg he
    rw [htext]
    refine StandsFor.call (isFunction_of_mem (by simp)) (by simp)
      (.cons h (.cons (standsFor_integer hwritable) .nil)) ?_
    rw [← Scalar.power_base hbase hexponent he]
    rfl

theorem neg_exact (q : Rat) : -(Number.exact q) = .exact (-q) := by
  show Number.exact (-1 * q) = _
  rw [neg_one_mul]

/-- The numbers of a coefficient as they are written. -/
theorem arguments_eq (q : Rat) :
    (Number.exact q).arguments = (Scalar.spelledNumbers q).map fun p => (Number.exact p).constructor := by
  have hminus : (-1 : Number) = .exact (-1) := neg_exact 1
  unfold Number.arguments Scalar.spelledNumbers
  rw [hminus, neg_exact, Number.one_eq]
  simp only [Number.exact.injEq, Number.isNegative, Number.value]
  by_cases h1 : q = 1
  · simp [h1]
  · by_cases hneg : q = -1
    · rw [hneg]
      rfl
    · by_cases hlt : q < 0 <;> simp [h1, hneg, hlt]

theorem isWritable_spelledNumbers {q : Rat} (h : (Number.exact q).isWritable) :
    ∀ p ∈ Scalar.spelledNumbers q, (Number.exact p).isWritable := by
  have hminus : (Number.exact (-1)).isWritable := by decide
  have hneg : (Number.exact (-q)).isWritable := by
    simpa [Number.isWritable] using h
  unfold Scalar.spelledNumbers
  split_ifs <;> simp [hminus, hneg, h]

theorem standsFor_spelled {q : Rat} (hq : (Number.exact q).isWritable) {fs : List (Factor Base)}
    (h : ∀ f ∈ fs, StandsFor (f.map Base.constructor).constructor.toList (.scalar (.ofFactor f))) :
    List.Forall₂ (fun text v => StandsFor text.toList v)
      ((Number.exact q).arguments ++ fs.map fun f => (f.map Base.constructor).constructor)
      ((Scalar.spelled q fs).map .scalar) := by
  rw [arguments_eq, Scalar.spelled, List.map_append, List.map_map, List.map_map]
  refine List.rel_append ?_ ?_
  · rw [List.forall₂_map_left_iff, List.forall₂_map_right_iff, List.forall₂_same]
    exact fun p hp => standsFor_number (isWritable_spelledNumbers hq p hp)
  · rw [List.forall₂_map_left_iff, List.forall₂_map_right_iff, List.forall₂_same]
    exact h

theorem mapM_asScalar (xs : List Scalar) :
    (xs.map Formula.Value.scalar).mapM Formula.Value.asScalar = .ok xs := by
  induction xs with
  | nil => rfl
  | cons x xs ih =>
      rw [List.map_cons, List.mapM_cons, ih]
      rfl

/-- **A term is read back**, if the bases in it are. -/
theorem standsFor_term {t : Term Base} (ht : t.IsNormal) (hwritable : t.IsWritable)
    (h : ∀ f ∈ t.factors, StandsFor f.base.constructor.toList (.scalar (.ofFactor ⟨f.base, 1⟩))) :
    StandsFor (t.map Base.constructor).constructor.toList (.scalar ⟨[t]⟩) := by
  obtain ⟨q, hq, hc⟩ := ht.exact
  have hpowers : ∀ f ∈ t.factors, StandsFor (f.map Base.constructor).constructor.toList (.scalar (.ofFactor f)) :=
    fun f hf => standsFor_factor (ht.bases f hf) (ht.exponent f hf) (hwritable.2 f hf).2 (h f hf)
  have hspelled : (t.map Base.constructor).spelled = t.map Base.constructor := by
    simp only [Term.spelled, Term.map, hc]
  obtain ⟨c, fs⟩ := t
  subst hc
  unfold Term.constructor
  rw [hspelled]
  rcases hfs : fs with _ | ⟨f, gs⟩
  · have hvalue : (⟨[⟨.exact q, []⟩]⟩ : Scalar) = .rational q := by rw [Scalar.rational_eq, if_neg hq]
    rw [hvalue]
    exact standsFor_number hwritable.1
  · subst hfs
    have hparts := standsFor_spelled hwritable.1 hpowers
    simp only [Term.map, List.map_cons, List.map_map, Function.comp_def] at hparts ⊢
    generalize (Number.exact q).arguments ++ (f.map Base.constructor).constructor ::
      gs.map (fun f => (f.map Base.constructor).constructor) = texts at hparts ⊢
    have hlength := hparts.length_eq
    rw [List.length_map] at hlength
    rcases texts with _ | ⟨text, _ | ⟨text', texts⟩⟩
    · simp [Scalar.spelled] at hlength
    · -- A coefficient that is not written is one, and the product is a single power.
      have hnumbers : Scalar.spelledNumbers q = [] ∧ gs = [] := by
        simp only [Scalar.spelled, List.length_append, List.length_map, List.length_cons, List.length_nil] at hlength
        exact ⟨List.length_eq_zero_iff.mp (by omega), List.length_eq_zero_iff.mp (by omega)⟩
      have hone : q = 1 := by rw [← (Scalar.spelledNumbers_spec q).1, hnumbers.1, List.prod_nil]
      rw [Scalar.spelled, hnumbers.1, hnumbers.2] at hparts
      cases hparts with
      | cons hread _ =>
          rw [Scalar.ofFactor_of_notGroup fun ts he => ht.notGroup ts (by rw [hnumbers.2, he])] at hread
          rw [hone, hnumbers.2]
          exact hread
    · refine StandsFor.call (isFunction_of_mem (by simp)) (by simp) hparts ?_
      have hproduct := Scalar.product_spelled ht rfl (by simp) (by rw [← hlength]; simp)
      simp only [Formula.applyConstructor, mapM_asScalar]
      exact congrArg Except.ok hproduct

/-- **A sum is read back**, if the bases in it are. -/
theorem standsFor_sum {ts : List (Term Base)} (hsum : IsSum ts) (hwritable : ∀ t ∈ ts, t.IsWritable)
    (h : ∀ t ∈ ts, ∀ f ∈ t.factors, StandsFor f.base.constructor.toList (.scalar (.ofFactor ⟨f.base, 1⟩))) :
    StandsFor (sumConstructor (ts.map (Term.map Base.constructor))).toList (.scalar ⟨ts⟩) := by
  have hmem : ∀ t ∈ displayed ts, t ∈ ts := fun t ht => (displayed_perm ts).mem_iff.mp ht
  have hterms : ∀ t ∈ displayed ts, StandsFor (t.map Base.constructor).constructor.toList (.scalar ⟨[t]⟩) :=
    fun t ht => standsFor_term (hsum.normal t (hmem t ht)) (hwritable t (hmem t ht)) (h t (hmem t ht))
  have hlength := (displayed_perm ts).length_eq
  unfold sumConstructor
  rw [displayed_map]
  rcases hdisplayed : displayed ts with _ | ⟨t, _ | ⟨u, us⟩⟩
  · obtain rfl : ts = [] := List.length_eq_zero_iff.mp (by rw [← hlength, hdisplayed]; rfl)
    exact standsFor_number (q := 0) (by decide)
  · obtain rfl : ts = [t] := List.perm_singleton.mp (hdisplayed ▸ (displayed_perm ts).symm)
    exact hterms t (by rw [hdisplayed]; exact List.mem_cons_self)
  · have htexts : List.Forall₂ (fun text v => StandsFor text.toList v)
        ((displayed ts).map (Term.constructor ∘ Term.map Base.constructor))
        (((displayed ts).map fun t => (⟨[t]⟩ : Scalar)).map .scalar) := by
      rw [List.map_map, List.forall₂_map_left_iff, List.forall₂_map_right_iff, List.forall₂_same]
      exact hterms
    have hsum' := Scalar.sum_displayed hsum (by rw [← hlength, hdisplayed]; simp)
    have hvalue : Formula.applyConstructor "Add" (((displayed ts).map fun t => (⟨[t]⟩ : Scalar)).map .scalar) =
        .ok ⟨ts⟩ := by
      simp only [Formula.applyConstructor, mapM_asScalar]
      exact congrArg Except.ok hsum'
    rw [hdisplayed] at htexts hvalue
    show StandsFor (callText "Add" (((t :: u :: us).map (Term.map Base.constructor)).map Term.constructor)).toList _
    rw [List.map_map]
    exact StandsFor.call (isFunction_of_mem (by simp)) (by simp) htexts hvalue

/-- A base is read back as the power one. -/
theorem standsFor_base : ∀ b : Base, b.IsNormal → b.isWritable →
    StandsFor b.constructor.toList (.scalar (.ofFactor ⟨b, 1⟩)) := by
  intro b
  induction b using Base.induction with
  | symbol name =>
      intro hb _
      cases hb with
      | symbol hname => exact StandsFor.call (isFunction_of_mem (by simp)) (by simp) (.cons (.name hname) .nil) rfl
  | group ts ih =>
      intro hb hwritable
      obtain ⟨-, hsum⟩ := Base.isNormal_group.mp hb
      rw [Base.isWritable_group] at hwritable
      rw [Base.constructor_group]
      exact standsFor_sum hsum hwritable fun t ht f hf =>
        ih t ht f hf ((hsum.normal t ht).bases f hf) ((hwritable t ht).2 f hf).1

/-- **The constructor text of a scalar in normal form is read as that scalar**, if its integers may be
written. -/
theorem Scalar.ofText_constructor {s : Scalar} (h : s.IsNormal) (hwritable : s.isWritable) :
    Scalar.ofText s.constructor = .ok s := by
  rw [isWritable_iff] at hwritable
  have hreads : StandsFor s.constructor.toList (.scalar s) := by
    rw [constructor_eq]
    exact standsFor_sum h hwritable fun t ht f hf =>
      standsFor_base f.base ((IsSum.normal h t ht).bases f hf) ((hwritable t ht).2 f hf).1
  rw [Scalar.ofText, hreads.read]
  rfl

end TensorEquations
