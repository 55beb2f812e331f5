import TensorEquations.Proofs.Scalar.Order

/-!
# Operations and values

The operations on scalars with values are those on their values.

* `Base.IsExact`, `Scalar.ofProduct_of_isExact` — without decimals and infinite numbers a product loses only its
  powers with exponent zero.
* `Scalar.multiply_eq` — the product of scalars with exact coefficients.
* `Interpretation.collectTerms_denotes`, `Interpretation.collectFactors_denotes` — collecting keeps the value.
* `Interpretation.sum_denotes`, `Interpretation.product_denotes` and the operations made from them.
-/

namespace TensorEquations

/-! ## Exact numbers -/

namespace Number

theorem exact_add (a b : Rat) : exact a + exact b = exact (a + b) := rfl

theorem exact_mul (a b : Rat) : exact a * exact b = exact (a * b) := rfl

theorem one_eq : (1 : Number) = exact 1 := rfl

theorem zero_eq : (0 : Number) = exact 0 := rfl

theorem exact_vanishes {a : Rat} : (exact a).vanishes = true ↔ a = 0 := by
  simp [vanishes, isZero]

theorem exact_pow {a : Rat} {n : Int} (h : 0 < n) : (exact a).pow n = exact (a ^ n.toNat) := by
  obtain ⟨m, rfl⟩ : ∃ m : Nat, n = m := ⟨n.toNat, by omega⟩
  have hm : ¬ ((m : Int) = 0) := by omega
  have hn : ¬ ((m : Int) < 0) := by omega
  simp only [pow, hm, hn, and_false, if_false, Int.toNat_natCast]
  congr 1

theorem exact_inv {a : Rat} (h : a ≠ 0) : (exact a).pow (-1) = exact a⁻¹ := by
  simp [pow, h]

end Number

theorem Term.scale_of_isExact {q : ℚ} {t : Term Base} (h : t.coefficient.isExact = true) :
    Term.scale q t = ⟨.exact (q * t.coefficient.value), t.factors⟩ := by
  unfold Term.scale
  rw [Number.eq_exact_of_isExact h]
  simp [Number.isInfinite, Number.scale, Number.value]

/-- A symbol, or a sum without decimals and infinite numbers. -/
def Base.IsExact (b : Base) : Prop := ∀ ts, b = .group ts → ∀ t ∈ ts, t.coefficient.isExact = true

/-- Nothing is taken out of the powers of exact sums. -/
theorem Factor.extract_of_isExact {f : Factor Base} (h : f.base.IsExact) : f.extract = (1, f) := by
  unfold Factor.extract
  split
  · rfl
  · rename_i ts hb
    have hdecimal : ts.any (·.coefficient.isDecimal) = false := by
      rw [List.any_eq_false]
      intro t ht
      rw [Number.eq_exact_of_isExact (h ts hb t ht)]
      simp [Number.isDecimal]
    simp [hdecimal]

theorem Base.isInfiniteSum_of_isExact {b : Base} (h : b.IsExact) : b.isInfiniteSum = false := by
  cases b with
  | symbol name => rfl
  | group ts =>
      rw [isInfiniteSum, List.any_eq_false]
      intro t ht
      rw [Number.eq_exact_of_isExact (h ts rfl t ht)]
      simp [Number.isInfinite]

/-- A product of exact bases loses only its powers with exponent zero. -/
theorem Scalar.ofProduct_of_isExact {q : Rat} {fs : List (Factor Base)} (h : ∀ f ∈ fs, f.base.IsExact) :
    ofProduct (.exact q) fs = ofFactors (.exact q) (fs.filter (·.exponent != 0)) := by
  have hany : fs.any (fun f => f.exponent == 0 && f.base.isInfiniteSum) = false := by
    rw [List.any_eq_false]
    intro f hf
    simp [Base.isInfiniteSum_of_isExact (h f hf)]
  have hparts : (fs.filter (·.exponent != 0)).map Factor.extract =
      (fs.filter (·.exponent != 0)).map fun f => (1, f) :=
    List.map_congr_left fun f hf => Factor.extract_of_isExact (h f (List.mem_of_mem_filter hf))
  have hone : ∀ gs : List (Factor Base),
      (gs.map fun _ => (1 : Number)).foldl (· * ·) (.exact q) = .exact q := by
    intro gs
    induction gs with
    | nil => rfl
    | cons g gs ih =>
        rw [List.map_cons, List.foldl_cons, Number.one_eq, Number.exact_mul, mul_one]
        exact ih
  unfold ofProduct
  simp only [hany, Bool.false_eq_true, if_false, hparts, List.map_map, Function.comp_def, hone,
    List.map_id']
  rfl

theorem Scalar.zero_eq : (0 : Scalar) = ⟨[]⟩ := rfl

namespace Scalar

theorem asProduct_of_number {s : Scalar} {c : Number} (h : s.number? = some c) :
    s.asProduct.2 = [] := by
  unfold number? at h
  unfold asProduct
  split at h
  · rename_i hs
    rw [hs]
  · rename_i hs
    rw [hs]
  · cases h

theorem distribute?_of_number?_eq_none {x : Scalar} (h : x.number? = none) (y : Scalar) :
    distribute? x y = none := by
  simp only [distribute?, h]

theorem distribute?_of_isSum_eq_false {y : Scalar} (h : y.isSum = false) (x : Scalar) :
    distribute? x y = none := by
  unfold distribute?
  split
  · simp [h]
  · rfl

theorem foldl_asProduct : ∀ {xs : List Scalar} {a : ℚ}, (∀ x ∈ xs, x.asProduct.1.isExact = true) →
    xs.foldl (fun c x => c * x.asProduct.1) (.exact a) = .exact (a * (xs.map (·.asProduct.1.value)).prod)
  | [], a, _ => by simp
  | x :: xs, a, h => by
    rw [List.foldl_cons, Number.eq_exact_of_isExact (h x List.mem_cons_self), Number.exact_mul,
      foldl_asProduct fun y hy => h y (List.mem_cons_of_mem _ hy), List.map_cons, List.prod_cons, mul_assoc]

theorem flatMap_filter_number (xs : List Scalar) :
    (xs.filter (not ∘ fun x => x.number?.isSome)).flatMap (·.asProduct.2) = xs.flatMap (·.asProduct.2) := by
  induction xs with
  | nil => rfl
  | cons x xs ih =>
    rw [List.filter_cons, List.flatMap_cons, ← ih]
    split
    · rfl
    · rename_i hx
      obtain ⟨c, hc⟩ := Option.ne_none_iff_exists'.mp (show x.number? ≠ none by simpa using hx)
      rw [asProduct_of_number hc, List.nil_append]

/-- **The product of scalars with exact coefficients**: numbers and powers are collected apart. -/
theorem multiply_eq {xs : List Scalar} (h : ∀ x ∈ xs, x.asProduct.1.isExact = true) : multiply xs =
    ofProduct (.exact (xs.map (·.asProduct.1.value)).prod) (collectFactors (xs.flatMap (·.asProduct.2))) := by
  have hperm : (xs.filter (·.number?.isSome) ++ xs.filter (not ∘ fun x => x.number?.isSome)).Perm xs :=
    List.filter_append_perm _ xs
  unfold multiply
  simp only [List.partition_eq_filter_filter]
  rw [flatMap_filter_number, Number.one_eq, foldl_asProduct fun x hx => h x (hperm.mem_iff.mp hx), one_mul,
    (hperm.map _).prod_eq]

end Scalar

namespace Interpretation

variable {R : Type} [CommRing R] {I : Interpretation R}

/-! ## Collecting terms -/

theorem term_exact (q : ℚ) (fs : List (Factor Base)) : I.term ⟨.exact q, fs⟩ = I.number q * I.factors fs := rfl

theorem DefinesTerm.exact_eq {t : Term Base} (h : I.DefinesTerm t) : t.coefficient = .exact t.coefficient.value :=
  Number.eq_exact_of_isExact h.exact

theorem insertTerm_denotes {t : Term Base} (ht : I.DefinesTerm t) : ∀ {ts : List (Term Base)},
    (∀ u ∈ ts, I.DefinesTerm u) → I.TermsDenote (insertTerm t ts) (I.term t + I.terms ts)
  | [], _ => ⟨by simpa [insertTerm] using ht, by simp [insertTerm]⟩
  | u :: us, h => by
    have hu := h u List.mem_cons_self
    have hus := fun v hv => h v (List.mem_cons_of_mem _ hv)
    unfold insertTerm
    split
    · exact ⟨by simpa using ⟨ht, hu, hus⟩, by simp⟩
    · obtain ⟨hp, hv⟩ := insertTerm_denotes ht hus
      exact ⟨by simpa using ⟨hu, hp⟩, by simp only [terms_cons, hv]; ring⟩
    · rename_i ho
      rw [Term.order_of_isExact ht.exact hu.exact] at ho
      have hf := factors_eq_of_compare ht.factors hu.factors ho
      obtain ⟨a, ha⟩ : ∃ a, t.coefficient = .exact a := ⟨_, ht.exact_eq⟩
      obtain ⟨b, hb⟩ : ∃ b, u.coefficient = .exact b := ⟨_, hu.exact_eq⟩
      have hc : addCoefficients u t = .exact (b + a) := by
        simp only [addCoefficients, ha, hb]; rfl
      have hsum : I.term t + I.terms (u :: us) = I.number (b + a) * I.factors t.factors + I.terms us := by
        simp only [terms_cons, term, ha, hb, Number.value, ← hf, map_add]; ring
      simp only [hc]
      rw [hsum]
      split
      · rename_i hz
        rw [Number.exact_vanishes] at hz
        exact ⟨hus, by simp [hz]⟩
      · exact ⟨List.forall_mem_cons.mpr ⟨⟨rfl, ht.factors⟩, hus⟩, by rw [terms_cons, term_exact]⟩

theorem foldl_insertTerm_denotes : ∀ {ts sum : List (Term Base)}, (∀ t ∈ ts, I.DefinesTerm t) →
    (∀ t ∈ sum, I.DefinesTerm t) →
    I.TermsDenote (ts.foldl (fun sum t => insertTerm t sum) sum) (I.terms sum + I.terms ts)
  | [], sum, _, h => ⟨h, by simp⟩
  | t :: ts, sum, ht, h => by
    obtain ⟨hp, hv⟩ := insertTerm_denotes (ht t List.mem_cons_self) h
    obtain ⟨hp', hv'⟩ := foldl_insertTerm_denotes (fun u hu => ht u (List.mem_cons_of_mem _ hu)) hp
    exact ⟨hp', by rw [List.foldl_cons, hv', hv, terms_cons]; ring⟩

theorem terms_filter_vanishes : ∀ {ts : List (Term Base)}, (∀ t ∈ ts, I.DefinesTerm t) →
    I.terms (ts.filter fun t => !t.coefficient.vanishes) = I.terms ts
  | [], _ => rfl
  | t :: ts, h => by
    have ih := terms_filter_vanishes fun u hu => h u (List.mem_cons_of_mem _ hu)
    have ht := (h t List.mem_cons_self).exact_eq
    rw [List.filter_cons]
    split
    · rw [terms_cons, terms_cons, ih]
    · rename_i hv
      rw [ht] at hv
      simp only [Bool.not_eq_true', Bool.not_eq_false, Number.exact_vanishes] at hv
      rw [ih, terms_cons, term, hv]
      simp

/-- **Collecting like terms keeps the value.** -/
theorem collectTerms_denotes {ts : List (Term Base)} (h : ∀ t ∈ ts, I.DefinesTerm t) :
    I.TermsDenote (collectTerms ts) (I.terms ts) := by
  have hempty : ∀ t ∈ ([] : List (Term Base)), I.DefinesTerm t := List.forall_mem_nil _
  obtain ⟨hp, hv⟩ :=
    foldl_insertTerm_denotes (fun t ht => h t (List.mem_of_mem_filter ht)) hempty
  exact ⟨hp, by rw [collectTerms, hv, terms_filter_vanishes h]; simp⟩

theorem any_isUndefined_eq_false {ts : List (Term Base)} (h : ∀ t ∈ ts, I.DefinesTerm t) :
    ts.any (·.coefficient.isUndefined) = false := by
  rw [List.any_eq_false]
  intro t ht
  rw [(h t ht).exact_eq]
  simp [Number.isUndefined]

theorem ofTerms_denotes {ts : List (Term Base)} (h : ∀ t ∈ ts, I.DefinesTerm t) :
    I.Denotes (Scalar.ofTerms ts) (I.terms ts) := by
  have hc := collectTerms_denotes h
  unfold Scalar.ofTerms
  simp only [any_isUndefined_eq_false hc.defines]
  exact hc.scalar

/-! ## Collecting factors -/

theorem insertFactor_denotes {f : Factor Base} (hf : I.DefinesFactor f) : ∀ {gs : List (Factor Base)},
    (∀ g ∈ gs, I.DefinesFactor g) →
    I.FactorsDenote (insertFactor f gs) (I.power (I.base f.base) f.exponent * I.factors gs)
  | [], _ => ⟨by simpa [insertFactor] using hf, by simp [insertFactor]⟩
  | g :: gs, h => by
    have hg := h g List.mem_cons_self
    have hgs := fun v hv => h v (List.mem_cons_of_mem _ hv)
    unfold insertFactor
    split
    · exact ⟨by simpa using ⟨hf, hg, hgs⟩, by simp⟩
    · obtain ⟨hp, hv⟩ := insertFactor_denotes hf hgs
      exact ⟨by simpa using ⟨hg, hp⟩, by simp only [factors_cons, hv]; ring⟩
    · rename_i ho
      have hb := base_eq_of_order hf.base hg.base ho
      have hadmits : I.Admits (I.base g.base) f.exponent := hb ▸ hf.admits
      refine ⟨List.forall_mem_cons.mpr ⟨⟨I.admits_add hg.admits hadmits, hg.base⟩, hgs⟩, ?_⟩
      rw [factors_cons, factors_cons, I.power_add hg.admits hadmits, hb]
      ring

theorem foldl_insertFactor_denotes : ∀ {fs product : List (Factor Base)},
    (∀ f ∈ fs, I.DefinesFactor f) → (∀ f ∈ product, I.DefinesFactor f) →
    I.FactorsDenote (fs.foldl (fun product f => insertFactor f product) product)
      (I.factors product * I.factors fs)
  | [], product, _, h => ⟨h, by simp⟩
  | f :: fs, product, hf, h => by
    obtain ⟨hp, hv⟩ := insertFactor_denotes (hf f List.mem_cons_self) h
    obtain ⟨hp', hv'⟩ :=
      foldl_insertFactor_denotes (fun g hg => hf g (List.mem_cons_of_mem _ hg)) hp
    exact ⟨hp', by rw [List.foldl_cons, hv', hv, factors_cons]; ring⟩

/-- **Collecting powers of equal bases keeps the value.** -/
theorem collectFactors_denotes {fs : List (Factor Base)} (h : ∀ f ∈ fs, I.DefinesFactor f) :
    I.FactorsDenote (collectFactors fs) (I.factors fs) := by
  have hempty : ∀ f ∈ ([] : List (Factor Base)), I.DefinesFactor f := List.forall_mem_nil _
  obtain ⟨hp, hv⟩ := foldl_insertFactor_denotes h hempty
  exact ⟨hp, by rw [collectFactors, hv]; simp⟩

/-! ## Products of a number and powers -/

theorem DefinesBase.isExact {b : Base} (h : I.DefinesBase b) : b.IsExact := by
  rintro ts rfl t ht
  exact ((I.definesBase_group.mp h) t ht).exact

theorem zero_denotes : I.Denotes ⟨[]⟩ 0 := ⟨List.forall_mem_nil _, rfl⟩

theorem number_denotes (q : Rat) : I.Denotes (.number (.exact q)) (I.number q) := by
  unfold Scalar.number
  split
  · rename_i h
    rw [Number.zero_eq, Number.exact.injEq] at h
    rw [h, map_zero]
    exact zero_denotes
  · refine ⟨List.forall_mem_singleton.mpr ⟨rfl, List.forall_mem_nil _⟩, ?_⟩
    simp [scalar, term_exact]

theorem one_denotes : I.Denotes 1 1 := by
  have h := number_denotes (I := I) 1
  rw [map_one] at h
  exact h

theorem symbol_denotes (name : String) : I.Denotes (.symbol name) (I.symbol name) := by
  have hfactor : I.DefinesFactor ⟨.symbol name, 1⟩ := ⟨I.admits_one _, .symbol name⟩
  refine ⟨List.forall_mem_singleton.mpr ⟨rfl, List.forall_mem_singleton.mpr hfactor⟩, ?_⟩
  simp [scalar, Scalar.symbol, Number.one_eq, term_exact, I.power_one]

/-- Another coefficient in front of every term of a sum. -/
theorem recoefficient_denotes {q : ℚ} {ts : List (Term Base)} (h : ∀ t ∈ ts, I.DefinesTerm t)
    {g : Term Base → Term Base} (hg : ∀ t ∈ ts, g t = ⟨.exact (q * t.coefficient.value), t.factors⟩) :
    I.TermsDenote (ts.map g) (I.number q * I.terms ts) := by
  induction ts with
  | nil => exact ⟨List.forall_mem_nil _, by simp⟩
  | cons t ts ih =>
      obtain ⟨ht, hts⟩ := List.forall_mem_cons.mp h
      obtain ⟨hgt, hgts⟩ := List.forall_mem_cons.mp hg
      obtain ⟨hp, hv⟩ := ih hts hgts
      rw [List.map_cons, hgt]
      refine ⟨List.forall_mem_cons.mpr ⟨⟨rfl, ht.factors⟩, hp⟩, ?_⟩
      rw [terms_cons, terms_cons, hv, term_exact, term, map_mul]
      ring

theorem ofFactors_denotes {q : Rat} {fs : List (Factor Base)} (h : ∀ f ∈ fs, I.DefinesFactor f) :
    I.Denotes (.ofFactors (.exact q) fs) (I.number q * I.factors fs) := by
  have hsingle : I.Denotes ⟨[⟨.exact q, fs⟩]⟩ (I.number q * I.factors fs) :=
    ⟨List.forall_mem_singleton.mpr ⟨rfl, h⟩, by simp [scalar, term_exact]⟩
  unfold Scalar.ofFactors
  simp only [Number.isUndefined, Bool.false_eq_true, if_false]
  split
  · rename_i hz
    have hq : q = 0 := by simpa [Number.isZero] using hz
    rw [hq, map_zero, zero_mul]
    exact zero_denotes
  · split
    · exact hsingle
    · rename_i ts
      have hts := I.definesBase_group.mp (h _ List.mem_cons_self).base
      have hv : I.factors [⟨.group ts, 1⟩] = I.terms ts := by simp [I.power_one]
      split
      · rename_i hone
        rw [Number.one_eq, Number.exact.injEq] at hone
        rw [hone, map_one, one_mul, hv]
        exact ⟨hts, rfl⟩
      · simp only [Number.isInfinite, Bool.false_eq_true, if_false]
        obtain ⟨hp, hd⟩ := recoefficient_denotes (q := q) hts
          (g := fun t => ⟨.exact q * t.coefficient, t.factors⟩) fun t ht => by
            rw [(hts t ht).exact_eq]
            rfl
        rw [hv, ← hd]
        exact ofTerms_denotes hp
    · exact hsingle

theorem ofTerm_denotes {t : Term Base} (h : I.DefinesTerm t) : I.Denotes (.ofTerm t) (I.term t) := by
  unfold Scalar.ofTerm term
  rw [h.exact_eq]
  exact ofFactors_denotes h.factors

/-- Powers with exponent zero are one. -/
theorem factors_filter_exponent {fs : List (Factor Base)} (h : ∀ f ∈ fs, I.DefinesFactor f) :
    I.factors (fs.filter (·.exponent != 0)) = I.factors fs := by
  induction fs with
  | nil => rfl
  | cons f fs ih =>
      obtain ⟨hf, hfs⟩ := List.forall_mem_cons.mp h
      rw [List.filter_cons, factors_cons, ← ih hfs]
      split
      · rw [factors_cons]
      · rename_i hzero
        have he : f.exponent = 0 := by simpa using hzero
        have hadmits := hf.admits
        rw [he] at hadmits ⊢
        rw [I.power_zero hadmits, one_mul]

theorem ofProduct_denotes {q : Rat} {fs : List (Factor Base)} (h : ∀ f ∈ fs, I.DefinesFactor f) :
    I.Denotes (.ofProduct (.exact q) fs) (I.number q * I.factors fs) := by
  rw [Scalar.ofProduct_of_isExact fun f hf => (h f hf).base.isExact, ← factors_filter_exponent h]
  exact ofFactors_denotes fun f hf => h f (List.mem_of_mem_filter hf)

theorem ofFactor_denotes {f : Factor Base} (h : I.DefinesFactor f) :
    I.Denotes (.ofFactor f) (I.power (I.base f.base) f.exponent) := by
  unfold Scalar.ofFactor
  split
  · rename_i ts
    rw [I.power_one, base_group]
    exact ⟨I.definesBase_group.mp h.base, rfl⟩
  · refine ⟨List.forall_mem_singleton.mpr ⟨rfl, List.forall_mem_singleton.mpr h⟩, ?_⟩
    simp [scalar, Number.one_eq, term_exact]

/-! ## Sums -/

theorem Denotes.number_of {s : Scalar} {a : R} (h : I.Denotes s a) {c : Number} (hc : s.number? = some c) :
    ∃ q, c = .exact q ∧ a = I.number q := by
  have hdefines := h.defines
  rw [← h.value, scalar]
  unfold Scalar.number? at hc
  split at hc
  · rename_i hs
    cases hc
    exact ⟨0, rfl, by simp [hs]⟩
  · rename_i c' hs
    cases hc
    have ht := hdefines ⟨c, []⟩ (by simp [hs])
    exact ⟨c.value, ht.exact_eq, by simp [hs, term]⟩
  · cases hc

theorem scalar_eq_zero_of_isZero {s : Scalar} (h : s.isZero = true) : I.scalar s = 0 := by
  rw [Scalar.isZero, List.isEmpty_iff] at h
  rw [scalar, h, terms_nil]

theorem flatMap_terms_denotes {xs : List Scalar} (h : ∀ x ∈ xs, I.Denotes x (I.scalar x)) :
    I.TermsDenote (xs.flatMap Scalar.terms) (xs.map I.scalar).sum := by
  induction xs with
  | nil => exact ⟨List.forall_mem_nil _, rfl⟩
  | cons x xs ih =>
      obtain ⟨hx, hxs⟩ := List.forall_mem_cons.mp h
      obtain ⟨hp, hv⟩ := ih hxs
      rw [List.flatMap_cons]
      exact ⟨List.forall_mem_append.mpr ⟨hx.defines, hp⟩, by rw [terms_append, hv]; rfl⟩

theorem sum_filter_isZero (xs : List Scalar) :
    ((xs.filter (!·.isZero)).map I.scalar).sum = (xs.map I.scalar).sum := by
  induction xs with
  | nil => rfl
  | cons x xs ih =>
      rw [List.filter_cons]
      split
      · simp [ih]
      · rename_i h
        have hx : x.isZero = true := by simpa using h
        simp [ih, scalar_eq_zero_of_isZero hx]

/-- **The sum of a list.** -/
theorem sum_denotes {xs : List Scalar} (h : ∀ x ∈ xs, I.Denotes x (I.scalar x)) :
    I.Denotes (.sum xs) (xs.map I.scalar).sum := by
  have hf : ∀ x ∈ xs.filter (!·.isZero), I.Denotes x (I.scalar x) :=
    fun x hx => h x (List.mem_of_mem_filter hx)
  rw [← sum_filter_isZero]
  unfold Scalar.sum
  split
  · rename_i hs
    rw [hs]
    exact zero_denotes
  · rename_i x hs
    rw [hs] at hf ⊢
    simpa using hf x List.mem_cons_self
  · generalize xs.filter (!·.isZero) = ys at hf
    simp only [List.partition_eq_filter_filter]
    have hperm : (ys.filter (not ∘ Scalar.isSum) ++ ys.filter Scalar.isSum).Perm ys :=
      List.perm_append_comm.trans (List.filter_append_perm Scalar.isSum ys)
    rw [← List.flatMap_append, ← (hperm.map I.scalar).sum_eq]
    have hall := flatMap_terms_denotes fun x hx => hf x (hperm.mem_iff.mp hx)
    rw [← hall.value]
    exact ofTerms_denotes hall.defines

theorem Denotes.add {a b : Scalar} {p q : R} (ha : I.Denotes a p) (hb : I.Denotes b q) :
    I.Denotes (a + b) (p + q) := by
  show I.Denotes (Scalar.add a b) _
  unfold Scalar.add
  split
  · rename_i c d hc hd
    obtain ⟨x, rfl, rfl⟩ := ha.number_of hc
    obtain ⟨y, rfl, rfl⟩ := hb.number_of hd
    rw [← map_add]
    exact number_denotes (x + y)
  · obtain ⟨ha, rfl⟩ := ha
    obtain ⟨hb, rfl⟩ := hb
    have hall : ∀ x ∈ [a, b], I.Denotes x (I.scalar x) :=
      List.forall_mem_cons.mpr ⟨⟨ha, rfl⟩, List.forall_mem_singleton.mpr ⟨hb, rfl⟩⟩
    simpa using sum_denotes hall

/-! ## Multiples -/

theorem scaleTerms_denotes (q : Rat) {ts : List (Term Base)} (h : ∀ t ∈ ts, I.DefinesTerm t) :
    I.TermsDenote (ts.map (Term.scale q)) (I.number q * I.terms ts) :=
  recoefficient_denotes h fun t ht => Term.scale_of_isExact (h t ht).exact

theorem Denotes.neg {a : Scalar} {p : R} (h : I.Denotes a p) : I.Denotes (-a) (-p) := by
  obtain ⟨hp, hv⟩ := scaleTerms_denotes (-1) h.defines
  refine (TermsDenote.mk hp (hv.trans ?_)).scalar
  rw [h.terms.value, map_neg, map_one]
  ring

theorem Denotes.sub {a b : Scalar} {p q : R} (ha : I.Denotes a p) (hb : I.Denotes b q) :
    I.Denotes (a - b) (p - q) := by
  rw [sub_eq_add_neg]
  exact ha.add hb.neg

/-! ## Products -/

/-- A scalar taken as a number times a product. -/
theorem Denotes.asProduct {s : Scalar} {a : R} (h : I.Denotes s a) :
    ∃ q, s.asProduct.1 = .exact q ∧ (∀ f ∈ s.asProduct.2, I.DefinesFactor f) ∧
      a = I.number q * I.factors s.asProduct.2 := by
  have ht := h.defines
  rw [← h.value]
  unfold Scalar.asProduct scalar
  split
  · rename_i hs
    exact ⟨0, rfl, List.forall_mem_nil _, by simp [hs]⟩
  · rename_i t hs
    have ht := ht t (by simp [hs])
    exact ⟨_, ht.exact_eq, ht.factors, by simp [hs, term]⟩
  · exact ⟨1, rfl, List.forall_mem_singleton.mpr ⟨I.admits_one _, I.definesBase_group.mpr ht⟩,
      by simp [I.power_one]⟩

theorem prod_asProduct {xs : List Scalar} (h : ∀ x ∈ xs, I.Denotes x (I.scalar x)) :
    (xs.map I.scalar).prod =
      I.number (xs.map (·.asProduct.1.value)).prod * I.factors (xs.flatMap (·.asProduct.2)) := by
  induction xs with
  | nil => simp
  | cons x xs ih =>
    obtain ⟨hx, hxs⟩ := List.forall_mem_cons.mp h
    obtain ⟨q, hq, -, hvalue⟩ := hx.asProduct
    have hvalue' : x.asProduct.1.value = q := by
      rw [hq]
      rfl
    rw [List.map_cons, List.prod_cons, hvalue, ih hxs, List.map_cons, List.prod_cons, hvalue', List.flatMap_cons,
      factors_append, map_mul]
    ring

theorem multiply_denotes {xs : List Scalar} (h : ∀ x ∈ xs, I.Denotes x (I.scalar x)) :
    I.Denotes (.multiply xs) (xs.map I.scalar).prod := by
  have hexact : ∀ x ∈ xs, x.asProduct.1.isExact = true := by
    intro x hx
    obtain ⟨q, hq, -, -⟩ := (h x hx).asProduct
    rw [hq]
    rfl
  have hfactors : ∀ f ∈ xs.flatMap (·.asProduct.2), I.DefinesFactor f := by
    intro f hf
    obtain ⟨x, hx, hf⟩ := List.mem_flatMap.mp hf
    obtain ⟨-, -, hp, -⟩ := (h x hx).asProduct
    exact hp f hf
  obtain ⟨hp, hv⟩ := collectFactors_denotes hfactors
  rw [Scalar.multiply_eq hexact, prod_asProduct h, ← hv]
  exact ofProduct_denotes hp

theorem distribute_denotes {x y z : Scalar} {p q : R} (hx : I.Denotes x p) (hy : I.Denotes y q)
    (h : Scalar.distribute? x y = some z) : I.Denotes z (p * q) := by
  unfold Scalar.distribute? at h
  split at h
  · rename_i r hr
    split at h
    · cases h
      obtain ⟨r, hr, rfl⟩ := hx.number_of hr
      cases hr
      obtain ⟨hp, hd⟩ := scaleTerms_denotes r hy.defines
      rw [← hy.value]
      exact (TermsDenote.mk hp hd).scalar
    · cases h
  · cases h

theorem prod_filter_ne_one (xs : List Scalar) :
    ((xs.filter (· ≠ 1)).map I.scalar).prod = (xs.map I.scalar).prod := by
  induction xs with
  | nil => rfl
  | cons x xs ih =>
      rw [List.filter_cons, List.map_cons, List.prod_cons, ← ih]
      split
      · rfl
      · rename_i h
        have hx : x = 1 := by simpa using h
        rw [hx, one_denotes.value, one_mul]

/-- **The product of a list.** -/
theorem product_denotes {xs : List Scalar} (h : ∀ x ∈ xs, I.Denotes x (I.scalar x)) :
    I.Denotes (.product xs) (xs.map I.scalar).prod := by
  have hf : ∀ x ∈ xs.filter (· ≠ 1), I.Denotes x (I.scalar x) := fun x hx => h x (List.mem_of_mem_filter hx)
  rw [← prod_filter_ne_one]
  unfold Scalar.product
  split
  · rename_i hs
    rw [hs]
    exact one_denotes
  · rename_i x hs
    rw [hs] at hf ⊢
    simpa using hf x List.mem_cons_self
  · rename_i x y hs
    rw [hs] at hf ⊢
    have hx := hf x (by simp)
    have hy := hf y (by simp)
    simp only [List.map_cons, List.map_nil, List.prod_cons, List.prod_nil, mul_one]
    cases hd : Scalar.distribute? x y with
    | some z => exact distribute_denotes hx hy hd
    | none =>
        cases he : Scalar.distribute? y x with
        | some z =>
            rw [mul_comm]
            exact distribute_denotes hy hx he
        | none => simpa using multiply_denotes hf
  · exact multiply_denotes hf

theorem Denotes.mul {a b : Scalar} {p q : R} (ha : I.Denotes a p) (hb : I.Denotes b q) :
    I.Denotes (a * b) (p * q) := by
  show I.Denotes (.product [a, b]) (p * q)
  obtain ⟨ha, rfl⟩ := ha
  obtain ⟨hb, rfl⟩ := hb
  have hall : ∀ x ∈ [a, b], I.Denotes x (I.scalar x) :=
    List.forall_mem_cons.mpr ⟨⟨ha, rfl⟩, List.forall_mem_singleton.mpr ⟨hb, rfl⟩⟩
  simpa using product_denotes hall

/-! ## Powers -/

/-- Every power raised to an exponent, if `g` tells what that makes of the values. -/
theorem raiseFactors_denotes {n : Int} (g : R →* R) {fs : List (Factor Base)} (h : ∀ f ∈ fs, I.DefinesFactor f)
    (hg : ∀ f ∈ fs, I.Admits (I.base f.base) (f.exponent * n) ∧
      I.power (I.base f.base) (f.exponent * n) = g (I.power (I.base f.base) f.exponent)) :
    I.FactorsDenote (raiseFactors n fs) (g (I.factors fs)) := by
  induction fs with
  | nil => exact ⟨List.forall_mem_nil _, by simp [raiseFactors]⟩
  | cons f fs ih =>
      obtain ⟨hf, hfs⟩ := List.forall_mem_cons.mp h
      obtain ⟨hgf, hgfs⟩ := List.forall_mem_cons.mp hg
      obtain ⟨hp, hv⟩ := ih hfs hgfs
      refine ⟨List.forall_mem_cons.mpr ⟨⟨hgf.1, hf.base⟩, hp⟩, ?_⟩
      show I.factors (⟨f.base, f.exponent * n⟩ :: raiseFactors n fs) = _
      rw [factors_cons, factors_cons, hv, map_mul, hgf.2]

end Interpretation

end TensorEquations
