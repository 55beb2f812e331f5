import Mathlib
import TensorEquations.Expression.Token
import TensorEquations.Proofs.Scalar.Arithmetic
import TensorEquations.Proofs.Scalar.WrittenOrder

/-!
# Normal form

Scalars that are built from rationals and symbols by exact arithmetic are stored in one form.

* `IsName` — the names that symbols have in the expression language.
* `Base.IsNormal`, `Term.IsNormal`, `IsSum`, `Scalar.IsNormal` — products and sums strictly in written
  order, with exact coefficients and exponents other than zero; a sum in parentheses has several terms
  and does not stand alone.
* `collectTerms_isSum`, `collectFactors_isOrdered` — collecting brings into this form.
* `Scalar.IsBuilt`, `Scalar.IsBuilt.isNormal` — the operations stay in this form.
-/

namespace TensorEquations

/-- A letter or an underscore, and behind it letters, digits, underscores and apostrophes. -/
def IsName (name : String) : Prop :=
  ∃ c cs, name.toList = c :: cs ∧ isNameFirst c ∧ ∀ d ∈ cs, isNameLater d

/-! ## Normal forms -/

/-- Powers whose bases are in written order, none twice. -/
def IsOrdered (fs : List (Factor Base)) : Prop := fs.Pairwise fun f g => f.base.order g.base = .lt

/-- A term as far as it does not concern the inside of its bases. A sum in parentheses is not the whole
product, since numbers are distributed over it. -/
structure Term.IsReduced (t : Term Base) : Prop where
  exact : ∃ q : Rat, q ≠ 0 ∧ t.coefficient = .exact q
  ordered : IsOrdered t.factors
  exponent : ∀ f ∈ t.factors, f.exponent ≠ 0
  notGroup : ∀ ts, t.factors ≠ [⟨.group ts, 1⟩]

/-- A symbol with a name, or a sum of several normal terms in written order. -/
inductive Base.IsNormal : Base → Prop
  | symbol {name : String} (h : IsName name) : IsNormal (.symbol name)
  | group {ts : List (Term Base)} (several : 2 ≤ ts.length)
      (ordered : ts.Pairwise fun t u => t.order u = .lt) (reduced : ∀ t ∈ ts, t.IsReduced)
      (bases : ∀ t ∈ ts, ∀ f ∈ t.factors, IsNormal f.base) : IsNormal (.group ts)

/-- A term whose bases are normal as well. -/
structure Term.IsNormal (t : Term Base) : Prop extends t.IsReduced where
  bases : ∀ f ∈ t.factors, f.base.IsNormal

/-- Normal terms in written order, no product twice. -/
structure IsSum (ts : List (Term Base)) : Prop where
  ordered : ts.Pairwise fun t u => t.order u = .lt
  normal : ∀ t ∈ ts, t.IsNormal

def Scalar.IsNormal (s : Scalar) : Prop := IsSum s.terms

theorem Base.isNormal_group {ts : List (Term Base)} :
    (Base.group ts).IsNormal ↔ 2 ≤ ts.length ∧ IsSum ts := by
  constructor
  · intro h
    cases h with
    | group several ordered reduced bases =>
        exact ⟨several, ordered, fun t ht => ⟨reduced t ht, bases t ht⟩⟩
  · rintro ⟨several, h⟩
    exact .group several h.ordered (fun t ht => (h.normal t ht).toIsReduced) fun t ht => (h.normal t ht).bases

theorem IsSum.nil : IsSum [] := ⟨List.Pairwise.nil, List.forall_mem_nil _⟩

theorem IsSum.singleton {t : Term Base} (h : t.IsNormal) : IsSum [t] :=
  ⟨List.pairwise_singleton _ _, by simpa using h⟩

theorem IsSum.tail {t : Term Base} {ts : List (Term Base)} (h : IsSum (t :: ts)) : IsSum ts :=
  ⟨(List.pairwise_cons.mp h.ordered).2, fun u hu => h.normal u (List.mem_cons_of_mem _ hu)⟩

theorem IsSum.cons {t : Term Base} {ts : List (Term Base)} (ht : t.IsNormal)
    (hlt : ∀ u ∈ ts, t.order u = .lt) (h : IsSum ts) : IsSum (t :: ts) :=
  ⟨List.pairwise_cons.mpr ⟨hlt, h.ordered⟩, by simpa using ⟨ht, h.normal⟩⟩

namespace Term

theorem IsReduced.isExact {t : Term Base} (h : t.IsReduced) : t.coefficient.isExact = true := by
  obtain ⟨q, _, hq⟩ := h.exact
  rw [hq]
  rfl

/-- Another coefficient for the same product. -/
theorem IsNormal.recoefficient {t : Term Base} (h : t.IsNormal) {q : Rat} (hq : q ≠ 0) :
    (⟨.exact q, t.factors⟩ : Term Base).IsNormal :=
  ⟨⟨⟨q, hq, rfl⟩, h.ordered, h.exponent, h.notGroup⟩, h.bases⟩

end Term

/-! ## Collecting terms -/

/-- What a sum has after a term has been added: its terms, and perhaps a multiple of the product of the
new one. -/
theorem mem_insertTerm {t : Term Base} (ht : t.IsReduced) : ∀ {us : List (Term Base)},
    (∀ u ∈ us, u.IsReduced) → ∀ v ∈ insertTerm t us,
      v ∈ us ∨ ∃ q : Rat, q ≠ 0 ∧ v = ⟨.exact q, t.factors⟩
  | [], _, v, hv => by
    obtain ⟨q, hq, hc⟩ := ht.exact
    rw [insertTerm, List.mem_singleton] at hv
    exact .inr ⟨q, hq, by rw [hv, ← hc]⟩
  | u :: us, hus, v, hv => by
    obtain ⟨q, hq, hc⟩ := ht.exact
    have hself : t = ⟨.exact q, t.factors⟩ := by rw [← hc]
    unfold insertTerm at hv
    split at hv
    · rcases List.mem_cons.mp hv with rfl | hv
      · exact .inr ⟨q, hq, hself⟩
      · exact .inl hv
    · rcases List.mem_cons.mp hv with rfl | hv
      · exact .inl List.mem_cons_self
      · exact (mem_insertTerm ht (fun w hw => hus w (List.mem_cons_of_mem _ hw)) v hv).imp_left
          (List.mem_cons_of_mem _)
    · obtain ⟨p, _, hp⟩ := (hus u List.mem_cons_self).exact
      have hadd : addCoefficients u t = .exact (p + q) := by simp only [addCoefficients, hc, hp]; rfl
      simp only [hadd] at hv
      split at hv
      · exact .inl (List.mem_cons_of_mem _ hv)
      · rename_i hz
        rw [Number.exact_vanishes] at hz
        rcases List.mem_cons.mp hv with rfl | hv
        · exact .inr ⟨p + q, hz, rfl⟩
        · exact .inl (List.mem_cons_of_mem _ hv)

theorem insertTerm_isSum {t : Term Base} (ht : t.IsNormal) : ∀ {us : List (Term Base)}, IsSum us →
    IsSum (insertTerm t us)
  | [], _ => .singleton ht
  | u :: us, h => by
    have hu := h.normal u List.mem_cons_self
    have hlt := (List.pairwise_cons.mp h.ordered).1
    have hreduced : ∀ v ∈ us, v.IsReduced := fun v hv => (h.tail.normal v hv).toIsReduced
    unfold insertTerm
    split
    · rename_i ho
      refine .cons ht ?_ h
      intro v hv
      rcases List.mem_cons.mp hv with rfl | hv
      · exact ho
      · exact Std.TransCmp.lt_trans ho (hlt v hv)
    · rename_i ho
      refine .cons hu ?_ (insertTerm_isSum ht h.tail)
      intro v hv
      rcases mem_insertTerm ht.toIsReduced hreduced v hv with hv | ⟨q, _, rfl⟩
      · exact hlt v hv
      · rw [Term.order_of_isExact hu.isExact rfl, ← Term.order_of_isExact hu.isExact ht.isExact]
        exact Std.OrientedCmp.lt_of_gt ho
    · rename_i ho
      obtain ⟨q, _, hq⟩ := ht.exact
      obtain ⟨p, _, hp⟩ := hu.exact
      have hadd : addCoefficients u t = .exact (p + q) := by simp only [addCoefficients, hp, hq]; rfl
      simp only [hadd]
      split
      · exact h.tail
      · rename_i hz
        rw [Number.exact_vanishes] at hz
        refine .cons (ht.recoefficient hz) ?_ h.tail
        intro v hv
        rw [Term.order_of_isExact rfl (hreduced v hv).isExact,
          ← Term.order_of_isExact ht.isExact (hreduced v hv).isExact]
        exact Std.TransCmp.lt_of_eq_of_lt ho (hlt v hv)

/-- **Collected terms are a sum in normal form.** -/
theorem collectTerms_isSum {ts : List (Term Base)} (h : ∀ t ∈ ts, t.IsNormal) :
    IsSum (collectTerms ts) := by
  unfold collectTerms
  have hfilter : ∀ t ∈ ts.filter (fun t => !t.coefficient.vanishes), t.IsNormal :=
    fun t ht => h t (List.mem_of_mem_filter ht)
  revert hfilter
  generalize ts.filter (fun t => !t.coefficient.vanishes) = us
  suffices ∀ sum, IsSum sum → (∀ t ∈ us, t.IsNormal) →
      IsSum (us.foldl (fun sum t => insertTerm t sum) sum) from this [] .nil
  induction us with
  | nil => exact fun sum hsum _ => hsum
  | cons u us ih =>
      exact fun sum hsum hus => ih _ (insertTerm_isSum (hus u List.mem_cons_self) hsum)
        fun t ht => hus t (List.mem_cons_of_mem _ ht)

theorem Scalar.ofTerms_eq {ts : List (Term Base)} (h : ∀ t ∈ ts, t.IsNormal) :
    Scalar.ofTerms ts = ⟨collectTerms ts⟩ := by
  have hany : (collectTerms ts).any (·.coefficient.isUndefined) = false := by
    rw [List.any_eq_false]
    intro t ht
    obtain ⟨q, _, hq⟩ := ((collectTerms_isSum h).normal t ht).exact
    rw [hq]
    simp [Number.isUndefined]
  simp only [ofTerms, hany, Bool.false_eq_true, if_false]

theorem Scalar.ofTerms_isNormal {ts : List (Term Base)} (h : ∀ t ∈ ts, t.IsNormal) :
    (Scalar.ofTerms ts).IsNormal := by
  rw [ofTerms_eq h]
  exact collectTerms_isSum h

/-! ## Collecting factors -/

theorem forall_mem_insertFactor {P : Base → Prop} {f : Factor Base} (hf : P f.base) :
    ∀ {gs : List (Factor Base)}, (∀ g ∈ gs, P g.base) → ∀ g ∈ insertFactor f gs, P g.base
  | [], _ => by simpa [insertFactor] using hf
  | g :: gs, h => by
    obtain ⟨hg, hgs⟩ := List.forall_mem_cons.mp h
    unfold insertFactor
    split
    · exact List.forall_mem_cons.mpr ⟨hf, h⟩
    · exact List.forall_mem_cons.mpr ⟨hg, forall_mem_insertFactor hf hgs⟩
    · exact List.forall_mem_cons.mpr ⟨hg, hgs⟩

theorem insertFactor_isOrdered (f : Factor Base) : ∀ {gs : List (Factor Base)}, IsOrdered gs →
    IsOrdered (insertFactor f gs)
  | [], _ => List.pairwise_singleton _ _
  | g :: gs, h => by
    obtain ⟨hlt, hgs⟩ := List.pairwise_cons.mp h
    unfold insertFactor
    split
    · rename_i ho
      refine List.pairwise_cons.mpr ⟨?_, h⟩
      exact List.forall_mem_cons.mpr ⟨ho, fun k hk => Std.TransCmp.lt_trans ho (hlt k hk)⟩
    · rename_i ho
      refine List.pairwise_cons.mpr ⟨?_, insertFactor_isOrdered f hgs⟩
      have hgf : g.base.order f.base = .lt := Std.OrientedCmp.lt_of_gt ho
      exact forall_mem_insertFactor (P := fun b => g.base.order b = .lt) hgf hlt
    · exact List.pairwise_cons.mpr ⟨hlt, hgs⟩

/-- **Collected powers are in written order, and their bases are those of the powers.** -/
theorem collectFactors_isOrdered (fs : List (Factor Base)) (h : ∀ f ∈ fs, f.base.IsNormal) :
    IsOrdered (collectFactors fs) ∧ ∀ f ∈ collectFactors fs, f.base.IsNormal := by
  unfold collectFactors
  suffices ∀ product, IsOrdered product → (∀ f ∈ product, f.base.IsNormal) →
      IsOrdered (fs.foldl (fun product f => insertFactor f product) product) ∧
        ∀ f ∈ fs.foldl (fun product f => insertFactor f product) product, f.base.IsNormal from
    this [] List.Pairwise.nil (List.forall_mem_nil _)
  induction fs with
  | nil => exact fun product hordered hbases => ⟨hordered, hbases⟩
  | cons f fs ih =>
      obtain ⟨hf, hfs⟩ := List.forall_mem_cons.mp h
      exact fun product hordered hbases =>
        ih hfs _ (insertFactor_isOrdered f hordered) (forall_mem_insertFactor hf hbases)

/-! ## Products -/

/-- Normal sums in parentheses have neither decimals nor infinite numbers. -/
theorem Base.IsNormal.isExact {b : Base} (h : b.IsNormal) : b.IsExact := by
  rintro ts rfl t ht
  exact ((Base.isNormal_group.mp h).2.normal t ht).isExact

namespace Scalar

theorem ofFactors_isNormal {q : Rat} {fs : List (Factor Base)} (hordered : IsOrdered fs)
    (hexponent : ∀ f ∈ fs, f.exponent ≠ 0) (hbases : ∀ f ∈ fs, f.base.IsNormal) :
    (ofFactors (.exact q) fs).IsNormal := by
  unfold ofFactors
  simp only [Number.isUndefined, Number.isZero, Number.isInfinite, Bool.false_eq_true, if_false, beq_iff_eq]
  split
  · exact .nil
  · rename_i hq
    split
    · exact .singleton ⟨⟨⟨q, hq, rfl⟩, hordered, hexponent, by simp⟩, hbases⟩
    · rename_i ts
      have hts := (Base.isNormal_group.mp (hbases _ List.mem_cons_self)).2
      split
      · exact hts
      · refine ofTerms_isNormal ?_
        intro u hu
        obtain ⟨t, ht, rfl⟩ := List.mem_map.mp hu
        obtain ⟨p, hp, hc⟩ := (hts.normal t ht).exact
        rw [hc, Number.exact_mul]
        exact (hts.normal t ht).recoefficient (mul_ne_zero hq hp)
    · rename_i hgroup
      exact .singleton ⟨⟨⟨q, hq, rfl⟩, hordered, hexponent, hgroup⟩, hbases⟩

theorem ofProduct_isNormal {q : Rat} {fs : List (Factor Base)} (hordered : IsOrdered fs)
    (hbases : ∀ f ∈ fs, f.base.IsNormal) : (ofProduct (.exact q) fs).IsNormal := by
  rw [ofProduct_of_isExact fun f hf => (hbases f hf).isExact]
  refine ofFactors_isNormal (hordered.filter _) ?_ fun f hf => hbases f (List.mem_of_mem_filter hf)
  intro f hf
  simpa using (List.mem_filter.mp hf).2

/-! ## Numbers and symbols -/

theorem number_isNormal (q : Rat) : (number (.exact q)).IsNormal := by
  unfold number
  split
  · exact .nil
  · rename_i hq
    have hne : q ≠ 0 := fun h => hq (by rw [h]; rfl)
    exact .singleton ⟨⟨⟨q, hne, rfl⟩, List.Pairwise.nil, List.forall_mem_nil _, by simp⟩,
      List.forall_mem_nil _⟩

theorem symbol_isNormal {name : String} (h : IsName name) : (symbol name).IsNormal :=
  .singleton ⟨⟨⟨1, one_ne_zero, rfl⟩, List.pairwise_singleton _ _, by simp, by simp⟩, by
    simpa using Base.IsNormal.symbol h⟩

theorem IsNormal.number_exact {a : Scalar} (h : a.IsNormal) {c : Number} (hc : a.number? = some c) :
    ∃ q, c = .exact q := by
  unfold number? at hc
  split at hc
  · cases hc
    exact ⟨0, rfl⟩
  · rename_i hs
    cases hc
    have ht : (⟨c, []⟩ : Term Base).IsNormal := IsSum.normal h _ (by simp [hs])
    obtain ⟨q, _, hq⟩ := ht.exact
    exact ⟨q, hq⟩
  · cases hc

/-- A normal scalar as a number times a product. -/
theorem IsNormal.asProduct {a : Scalar} (h : a.IsNormal) :
    (∃ q, a.asProduct.1 = .exact q ∧ (a ≠ 0 → q ≠ 0)) ∧ IsOrdered a.asProduct.2 ∧
      ∀ f ∈ a.asProduct.2, f.base.IsNormal := by
  unfold Scalar.asProduct
  split
  · rename_i hs
    have ha : a = 0 := by rw [zero_eq, ← hs]
    exact ⟨⟨0, rfl, fun hne => absurd ha hne⟩, List.Pairwise.nil, List.forall_mem_nil _⟩
  · rename_i t hs
    have ht : t.IsNormal := IsSum.normal h _ (by simp [hs])
    obtain ⟨q, hne, hq⟩ := ht.exact
    exact ⟨⟨q, hq, fun _ => hne⟩, ht.ordered, ht.bases⟩
  · rename_i hnil hone
    refine ⟨⟨1, rfl, fun _ => one_ne_zero⟩, List.pairwise_singleton _ _, ?_⟩
    have hlength : 2 ≤ a.terms.length := by
      match hterms : a.terms with
      | [] => exact absurd hterms hnil
      | [t] => exact absurd hterms (hone t)
      | _ :: _ :: _ => simp
    simpa using Base.isNormal_group.mpr ⟨hlength, h⟩

/-! ## Operations -/

theorem sum_isNormal {xs : List Scalar} (h : ∀ x ∈ xs, x.IsNormal) : (sum xs).IsNormal := by
  have hfilter : ∀ x ∈ xs.filter (!·.isZero), x.IsNormal := fun x hx => h x (List.mem_of_mem_filter hx)
  unfold sum
  split
  · exact .nil
  · rename_i x hs
    exact hfilter x (by simp [hs])
  · simp only [List.partition_eq_filter_filter]
    refine ofTerms_isNormal ?_
    intro t ht
    simp only [List.mem_append, List.mem_flatMap] at ht
    rcases ht with ⟨x, hx, ht⟩ | ⟨x, hx, ht⟩ <;>
      exact IsSum.normal (hfilter x (List.mem_of_mem_filter hx)) t ht

theorem IsNormal.add {a b : Scalar} (ha : a.IsNormal) (hb : b.IsNormal) : (a + b).IsNormal := by
  show (Scalar.add a b).IsNormal
  unfold Scalar.add
  split
  · rename_i hc hd
    obtain ⟨p, rfl⟩ := ha.number_exact hc
    obtain ⟨q, rfl⟩ := hb.number_exact hd
    exact number_isNormal (p + q)
  · exact sum_isNormal (by simp [ha, hb])

theorem scale_isSum {q : Rat} (hq : q ≠ 0) {ts : List (Term Base)} (h : IsSum ts) :
    IsSum (ts.map (Term.scale q)) := by
  have hscale : ∀ t ∈ ts, ∃ p : Rat, p ≠ 0 ∧ Term.scale q t = ⟨.exact p, t.factors⟩ := by
    intro t ht
    obtain ⟨p, hp, hc⟩ := (h.normal t ht).exact
    exact ⟨q * p, mul_ne_zero hq hp, by simp [Term.scale, hc, Number.isInfinite, Number.scale]⟩
  refine ⟨?_, ?_⟩
  · rw [List.pairwise_map]
    refine h.ordered.imp_of_mem ?_
    intro t u ht hu hlt
    obtain ⟨_, _, ht'⟩ := hscale t ht
    obtain ⟨_, _, hu'⟩ := hscale u hu
    rw [ht', hu', Term.order_of_isExact rfl rfl, ← Term.order_of_isExact (h.normal t ht).isExact
      (h.normal u hu).isExact]
    exact hlt
  · intro u hu
    obtain ⟨t, ht, rfl⟩ := List.mem_map.mp hu
    obtain ⟨p, hp, ht'⟩ := hscale t ht
    rw [ht']
    exact (h.normal t ht).recoefficient hp

theorem IsNormal.neg {a : Scalar} (h : a.IsNormal) : (-a).IsNormal := scale_isSum (by decide) h

theorem IsNormal.sub {a b : Scalar} (ha : a.IsNormal) (hb : b.IsNormal) : (a - b).IsNormal := ha.add hb.neg

theorem distribute_isNormal {x y z : Scalar} (hy : y.IsNormal) (h : distribute? x y = some z) :
    z.IsNormal := by
  unfold distribute? at h
  split at h
  · split at h
    · rename_i hq
      cases h
      exact scale_isSum hq.1 hy
    · cases h
  · cases h

theorem multiply_isNormal {xs : List Scalar} (h : ∀ x ∈ xs, x.IsNormal) : (multiply xs).IsNormal := by
  have hexact : ∀ x ∈ xs, x.asProduct.1.isExact = true := by
    intro x hx
    obtain ⟨q, hq, -⟩ := (h x hx).asProduct.1
    rw [hq]
    rfl
  have hfactors : ∀ f ∈ xs.flatMap (·.asProduct.2), f.base.IsNormal := by
    intro f hf
    obtain ⟨x, hx, hf⟩ := List.mem_flatMap.mp hf
    exact (h x hx).asProduct.2.2 f hf
  obtain ⟨hordered, hbases⟩ := collectFactors_isOrdered _ hfactors
  rw [multiply_eq hexact]
  exact ofProduct_isNormal hordered hbases

theorem product_isNormal {xs : List Scalar} (h : ∀ x ∈ xs, x.IsNormal) : (product xs).IsNormal := by
  have hfilter : ∀ x ∈ xs.filter (· ≠ 1), x.IsNormal := fun x hx => h x (List.mem_of_mem_filter hx)
  unfold product
  split
  · exact number_isNormal 1
  · rename_i x hs
    exact hfilter x (hs ▸ List.mem_singleton_self x)
  · rename_i x y hs
    rw [hs] at hfilter
    have hx := hfilter x (by simp)
    have hy := hfilter y (by simp)
    cases hd : distribute? x y with
    | some z => exact distribute_isNormal hy hd
    | none =>
        cases he : distribute? y x with
        | some z => exact distribute_isNormal hx he
        | none => exact multiply_isNormal hfilter
  · exact multiply_isNormal hfilter

theorem IsNormal.mul {a b : Scalar} (ha : a.IsNormal) (hb : b.IsNormal) : (a * b).IsNormal :=
  product_isNormal (by simp [ha, hb])

theorem number_ne_zero {a : Scalar} {q : Rat} (ha : a ≠ 0) (h : a.IsNormal)
    (hq : a.number? = some (.exact q)) : q ≠ 0 := by
  rintro rfl
  unfold number? at hq
  split at hq
  · rename_i hs
    exact ha (by cases a; simp_all [zero_eq])
  · rename_i c hs
    cases hq
    obtain ⟨q, hq, hc⟩ := (IsSum.normal h ⟨.exact 0, []⟩ (by simp [hs])).exact
    exact hq (Number.exact.inj hc).symm
  · cases hq

theorem raiseFactors_isOrdered {n : Int} {fs : List (Factor Base)} (h : IsOrdered fs) :
    IsOrdered (raiseFactors n fs) := by
  rw [IsOrdered, raiseFactors, List.pairwise_map]
  exact h

theorem IsNormal.inv {a : Scalar} (h : a.IsNormal) (ha : a ≠ 0) : a.inv.IsNormal := by
  unfold Scalar.inv Scalar.pow
  rw [if_neg (by decide), if_neg (by decide)]
  split
  · rename_i c hc
    obtain ⟨q, rfl⟩ := h.number_exact hc
    rw [Number.exact_inv (number_ne_zero ha h hc)]
    exact number_isNormal _
  · rename_i hc
    obtain ⟨⟨q, hq, hne⟩, hordered, hbases⟩ := h.asProduct
    rw [hq, Number.exact_inv (hne ha)]
    refine ofProduct_isNormal (raiseFactors_isOrdered hordered) ?_
    intro f hf
    obtain ⟨g, hg, rfl⟩ := List.mem_map.mp hf
    exact hbases g hg

theorem IsNormal.div {a b : Scalar} (ha : a.IsNormal) (hb : b.IsNormal) (hne : b ≠ 0) :
    (a / b).IsNormal := by
  show (Scalar.div a b).IsNormal
  unfold Scalar.div
  split
  · rename_i hc hd
    obtain ⟨p, rfl⟩ := ha.number_exact hc
    obtain ⟨q, rfl⟩ := hb.number_exact hd
    have hq := number_ne_zero hne hb hd
    have hdiv : (Number.exact p / .exact q) = .exact (p / q) := by
      show Number.div _ _ = _
      simp only [Number.div, hq, if_false]
    rw [hdiv]
    exact number_isNormal _
  · exact ha.mul (hb.inv hne)

/-- What is made of rationals and symbols with names by addition, subtraction, multiplication and division
by anything but zero. -/
inductive IsBuilt : Scalar → Prop
  | rational (q : Rat) : IsBuilt (rational q)
  | symbol {name : String} (h : IsName name) : IsBuilt (symbol name)
  | neg {a : Scalar} (ha : IsBuilt a) : IsBuilt (-a)
  | add {a b : Scalar} (ha : IsBuilt a) (hb : IsBuilt b) : IsBuilt (a + b)
  | sub {a b : Scalar} (ha : IsBuilt a) (hb : IsBuilt b) : IsBuilt (a - b)
  | mul {a b : Scalar} (ha : IsBuilt a) (hb : IsBuilt b) : IsBuilt (a * b)
  | div {a b : Scalar} (ha : IsBuilt a) (hb : IsBuilt b) (hne : b ≠ 0) : IsBuilt (a / b)

/-- **What is built from rationals and symbols is in normal form.** -/
theorem IsBuilt.isNormal {s : Scalar} (h : s.IsBuilt) : s.IsNormal := by
  induction h with
  | rational q => exact number_isNormal q
  | symbol h => exact symbol_isNormal h
  | neg _ ha => exact ha.neg
  | add _ _ ha hb => exact ha.add hb
  | sub _ _ ha hb => exact ha.sub hb
  | mul _ _ ha hb => exact ha.mul hb
  | div _ _ hne ha hb => exact ha.div hb hne

end Scalar

end TensorEquations
