import TensorEquations.Proofs.Scalar.Polynomial

/-!
# Orders and values

What is equal in written order has one value, so that collecting it loses nothing.

* `sortBy_perm`, `operandTerms_perm` — sorting only changes places.
* `Key.eq_of_compareLex` — keys that compare as equal are equal.
* `Interpretation.isRead` — the key of a base tells its value and where the key ends.
* `Interpretation.base_eq_of_order`, `Interpretation.factors_eq_of_compare`, `Term.order_of_isExact` — the same for
  the three orders.
-/

namespace TensorEquations

open MvPolynomial

/-! ## Sorting -/

theorem insertBy_perm {α : Type} (before : α → α → Bool) (x : α) :
    ∀ ys : List α, (insertBy before x ys).Perm (x :: ys)
  | [] => List.Perm.refl _
  | y :: ys => by
    unfold insertBy
    split
    · exact ((insertBy_perm before x ys).cons y).trans (List.Perm.swap _ _ _)
    · exact List.Perm.refl _

theorem sortBy_perm {α : Type} (before : α → α → Bool) :
    ∀ xs : List α, (sortBy before xs).Perm xs
  | [] => List.Perm.refl _
  | x :: xs => (insertBy_perm before x _).trans ((sortBy_perm before xs).cons x)

/-- Elements sorted by keys that go along with them. -/
theorem sortBy_keyed_perm {α κ : Type} (before : κ × α → κ × α → Bool) (key : α → κ) (xs : List α) :
    ((sortBy before (xs.map fun x => (key x, x))).map (·.2)).Perm xs := by
  refine ((sortBy_perm before _).map (·.2)).trans ?_
  rw [List.map_map, show ((·.2) ∘ fun x => (key x, x)) = id from rfl, List.map_id]

theorem operandTerms_perm (ts : List (Term Base)) : (operandTerms ts).Perm ts := by
  unfold operandTerms
  simp only [List.partition_eq_filter_filter]
  exact ((sortBy_keyed_perm _ (fun t : Term Base => (t.map Base.operandKey).operandKey) _).append_left
    _).trans (List.filter_append_perm Term.isNumber ts)

theorem operandFactors_perm (fs : List (Factor Base)) : (operandFactors fs).Perm fs :=
  sortBy_keyed_perm _ (fun f : Factor Base => (f.map Base.operandKey).operandKey) fs

/-! ## Keys -/

instance : Std.LawfulEqCmp KeyPart.order where
  compare_self {a} := by
    cases a with
    | rank n => simp [KeyPart.order]
    | number q => simp [KeyPart.order, compareOfLessAndEq]
    | name s => simp [KeyPart.order]
  eq_of_compare {a b} h := by
    cases a <;> cases b <;> simp_all [KeyPart.order]
    unfold compareOfLessAndEq at h
    split at h
    · cases h
    · split at h
      · assumption
      · cases h

theorem Key.eq_of_compareLex {k l : Key} (h : List.compareLex KeyPart.order k l = .eq) : k = l :=
  Std.LawfulEqCmp.eq_of_compare h

theorem displayed_perm {β : Type} (ts : List (Term β)) : (displayed ts).Perm ts := by
  unfold displayed
  split
  · split
    · exact List.Perm.swap _ _ _
    · exact List.Perm.refl _
  · exact List.Perm.refl _

theorem displayed_map {β γ : Type} (g : β → γ) (ts : List (Term β)) :
    displayed (ts.map (Term.map g)) = (displayed ts).map (Term.map g) := by
  rcases ts with _ | ⟨⟨c, _ | ⟨f, _ | ⟨g, fs⟩⟩⟩, _ | ⟨⟨d, _ | ⟨h, gs⟩⟩, _ | ⟨t, ts⟩⟩⟩ <;> try rfl
  simp only [List.map_cons, List.map_nil, Term.map, displayed]
  split <;> rfl

/-- The key of a term of a sum. -/
def Term.keyInSum (t : Term Base) : Key := (t.map Base.writtenKey).writtenKey

theorem Base.writtenKey_symbol (name : String) :
    (Base.symbol name).writtenKey = [.rank 2, .name name] := rfl

theorem Base.writtenKey_group (ts : List (Term Base)) :
    (Base.group ts).writtenKey =
      .rank 4 :: .rank ts.length :: (displayed ts).flatMap Term.keyInSum := by
  unfold Base.writtenKey
  simp only [Base.fold, Base.foldTerms_eq_map, List.length_map]
  rw [displayed_map, List.flatMap_map]
  rfl

/-- The key of a power in a product. -/
def Factor.keyInProduct (f : Factor Base) : Key := f.base.writtenKey ++ [.number f.exponent]

/-- The three shapes of the key of a term with an exact coefficient. -/
theorem Term.keyInSum_eq {t : Term Base} (h : t.coefficient.isExact = true) :
    (t.factors = [] ∧ t.keyInSum = [.rank 1, .number t.coefficient.value, .rank 0]) ∨
    (∃ f, t.factors = [f] ∧
      t.keyInSum = f.keyInProduct ++ [.number t.coefficient.value, .rank 0]) ∨
    (2 ≤ t.factors.length ∧ t.keyInSum =
      .rank 3 :: .rank t.factors.length :: t.factors.flatMap (fun f => f.keyInProduct ++ [.number 1]) ++
        [.number 1, .number t.coefficient.value, .rank 0]) := by
  obtain ⟨c, fs⟩ := t
  obtain ⟨q, rfl⟩ : ∃ q, c = .exact q := ⟨_, Number.eq_exact_of_isExact h⟩
  match fs with
  | [] => exact .inl ⟨rfl, rfl⟩
  | [f] => exact .inr (.inl ⟨f, rfl, rfl⟩)
  | f :: g :: fs =>
    refine .inr (.inr ⟨by simp, ?_⟩)
    simp [Term.keyInSum, Term.map, Term.writtenKey, Number.writtenKey, Number.isDecimal,
      Factor.map, Factor.writtenKey, Factor.keyInProduct, List.flatMap_map]

/-- The key of a base begins with the rank of symbols or with that of sums. -/
theorem Base.writtenKey_head (b : Base) :
    ∃ k, b.writtenKey = .rank 2 :: k ∨ b.writtenKey = .rank 4 :: k := by
  cases b with
  | symbol name => exact ⟨_, .inl (Base.writtenKey_symbol name)⟩
  | group ts => exact ⟨_, .inr (Base.writtenKey_group ts)⟩

theorem Factor.keyInProduct_head (f : Factor Base) :
    ∃ k, f.keyInProduct = .rank 2 :: k ∨ f.keyInProduct = .rank 4 :: k := by
  obtain ⟨k, h | h⟩ := f.base.writtenKey_head
  · exact ⟨k ++ [.number f.exponent], .inl (by rw [Factor.keyInProduct, h]; rfl)⟩
  · exact ⟨k ++ [.number f.exponent], .inr (by rw [Factor.keyInProduct, h]; rfl)⟩

theorem Factor.keyInProduct_append_ne (f : Factor Base) {n : Nat} (h₂ : n ≠ 2) (h₄ : n ≠ 4)
    (k l : Key) : f.keyInProduct ++ k ≠ .rank n :: l := by
  intro h
  obtain ⟨m, hm | hm⟩ := f.keyInProduct_head <;> rw [hm] at h <;>
    simp only [List.cons_append, List.cons.injEq, KeyPart.rank.injEq] at h
  · exact h₂ h.1.symm
  · exact h₄ h.1.symm

/-! ## Keys tell values -/

namespace Interpretation

variable {R : Type} [CommRing R] {I : Interpretation R}

/-- The key of a base, whatever follows it, tells the value and where the key ends. -/
def IsRead (I : Interpretation R) (b : Base) : Prop :=
  I.DefinesBase b → ∀ c : Base, I.DefinesBase c → ∀ k l : Key,
    b.writtenKey ++ k = c.writtenKey ++ l → I.base b = I.base c ∧ k = l

theorem keyInProduct_append_inj {f g : Factor Base} (hr : I.IsRead f.base) (hf : I.DefinesFactor f)
    (hg : I.DefinesFactor g) {k l : Key} (h : f.keyInProduct ++ k = g.keyInProduct ++ l) :
    I.power (I.base f.base) f.exponent = I.power (I.base g.base) g.exponent ∧ k = l := by
  simp only [Factor.keyInProduct, List.append_assoc] at h
  obtain ⟨hp, hk⟩ := hr hf.base _ hg.base _ _ h
  simp only [List.cons_append, List.nil_append, List.cons.injEq, KeyPart.number.injEq,
    Int.cast_inj] at hk
  exact ⟨by rw [hp, hk.1], hk.2⟩

theorem factors_keys_append_inj : ∀ {fs gs : List (Factor Base)}, fs.length = gs.length →
    (∀ f ∈ fs, I.IsRead f.base) → (∀ f ∈ fs, I.DefinesFactor f) → (∀ g ∈ gs, I.DefinesFactor g) →
    ∀ {k l : Key}, fs.flatMap (fun f => f.keyInProduct ++ [.number 1]) ++ k =
      gs.flatMap (fun g => g.keyInProduct ++ [.number 1]) ++ l →
    I.factors fs = I.factors gs ∧ k = l
  | [], [], _, _, _, _, k, l, h => ⟨rfl, h⟩
  | f :: fs, g :: gs, hn, hr, hf, hg, k, l, h => by
    simp only [List.flatMap_cons, List.append_assoc] at h
    obtain ⟨hp, hk⟩ := keyInProduct_append_inj (hr f List.mem_cons_self)
      (hf f List.mem_cons_self) (hg g List.mem_cons_self) h
    simp only [List.cons_append, List.nil_append, List.cons.injEq, true_and] at hk
    obtain ⟨hps, hl⟩ := factors_keys_append_inj (Nat.succ.inj hn)
      (fun f h => hr f (List.mem_cons_of_mem _ h)) (fun f h => hf f (List.mem_cons_of_mem _ h))
      (fun g h => hg g (List.mem_cons_of_mem _ h)) hk
    exact ⟨by rw [factors_cons, factors_cons, hp, hps], hl⟩

theorem keyInSum_append_inj {t u : Term Base} (hr : ∀ f ∈ t.factors, I.IsRead f.base)
    (ht : I.DefinesTerm t) (hu : I.DefinesTerm u) {k l : Key}
    (h : t.keyInSum ++ k = u.keyInSum ++ l) : I.term t = I.term u ∧ k = l := by
  unfold term
  rcases Term.keyInSum_eq ht.exact with ⟨htf, htk⟩ | ⟨f, htf, htk⟩ | ⟨htf, htk⟩ <;>
    rcases Term.keyInSum_eq hu.exact with ⟨huf, huk⟩ | ⟨g, huf, huk⟩ | ⟨huf, huk⟩ <;>
    rw [htk, huk] at h <;> simp only [List.append_assoc, List.cons_append, List.nil_append] at h
  · simp only [List.cons.injEq, KeyPart.number.injEq, true_and] at h
    exact ⟨by rw [h.1, htf, huf], h.2⟩
  · exact absurd h.symm (g.keyInProduct_append_ne (by decide) (by decide) _ _)
  · simp at h
  · exact absurd h (f.keyInProduct_append_ne (by decide) (by decide) _ _)
  · rw [htf] at hr
    obtain ⟨hp, hk⟩ := keyInProduct_append_inj (hr f List.mem_cons_self)
      (ht.factors f (by simp [htf])) (hu.factors g (by simp [huf])) h
    simp only [List.cons.injEq, KeyPart.number.injEq, true_and] at hk
    exact ⟨by rw [hk.1, htf, huf, factors_cons, factors_cons, hp], hk.2⟩
  · exact absurd h (f.keyInProduct_append_ne (by decide) (by decide) _ _)
  · simp at h
  · exact absurd h.symm (g.keyInProduct_append_ne (by decide) (by decide) _ _)
  · simp only [List.cons.injEq, KeyPart.rank.injEq, true_and] at h
    obtain ⟨hp, hk⟩ := factors_keys_append_inj h.1 hr ht.factors hu.factors h.2
    simp only [List.cons.injEq, KeyPart.number.injEq, true_and] at hk
    exact ⟨by rw [hk.1, hp], hk.2⟩

theorem terms_keys_append_inj : ∀ {ts us : List (Term Base)}, ts.length = us.length →
    (∀ t ∈ ts, ∀ f ∈ t.factors, I.IsRead f.base) → (∀ t ∈ ts, I.DefinesTerm t) →
    (∀ u ∈ us, I.DefinesTerm u) →
    ∀ {k l : Key}, ts.flatMap Term.keyInSum ++ k = us.flatMap Term.keyInSum ++ l →
    I.terms ts = I.terms us ∧ k = l
  | [], [], _, _, _, _, k, l, h => ⟨rfl, h⟩
  | t :: ts, u :: us, hn, hr, ht, hu, k, l, h => by
    simp only [List.flatMap_cons, List.append_assoc] at h
    obtain ⟨hp, hk⟩ := keyInSum_append_inj (hr t List.mem_cons_self)
      (ht t List.mem_cons_self) (hu u List.mem_cons_self) h
    obtain ⟨hps, hl⟩ := terms_keys_append_inj (Nat.succ.inj hn)
      (fun t h => hr t (List.mem_cons_of_mem _ h)) (fun t h => ht t (List.mem_cons_of_mem _ h))
      (fun u h => hu u (List.mem_cons_of_mem _ h)) hk
    exact ⟨by rw [terms_cons, terms_cons, hp, hps], hl⟩

/-- **The key of a base tells its value.** -/
theorem isRead (b : Base) : I.IsRead b := by
  induction b using Base.induction with
  | symbol name =>
      intro _ c _ k l h
      cases c with
      | symbol name' =>
          simp only [Base.writtenKey_symbol, List.cons_append, List.nil_append, List.cons.injEq,
            KeyPart.name.injEq, true_and] at h
          exact ⟨by rw [h.1], h.2⟩
      | group us => simp [Base.writtenKey_symbol, Base.writtenKey_group] at h
  | group ts ih =>
      intro hb c hc k l h
      cases c with
      | symbol name => simp [Base.writtenKey_symbol, Base.writtenKey_group] at h
      | group us =>
          simp only [Base.writtenKey_group, List.cons_append, List.cons.injEq, KeyPart.rank.injEq,
            true_and] at h
          have hts := displayed_perm ts
          have hus := displayed_perm us
          rw [I.definesBase_group] at hb hc
          obtain ⟨hp, hk⟩ := terms_keys_append_inj (hts.length_eq.trans (h.1.trans hus.length_eq.symm))
            (fun t ht => ih t (hts.mem_iff.mp ht)) (fun t ht => hb t (hts.mem_iff.mp ht))
            (fun u hu => hc u (hus.mem_iff.mp hu)) h.2
          rw [I.terms_perm hts, I.terms_perm hus] at hp
          exact ⟨by rw [base_group, base_group, hp], hk⟩

/-! ## Orders -/

theorem base_eq_of_order {b c : Base} (hb : I.DefinesBase b) (hc : I.DefinesBase c) (h : b.order c = .eq) :
    I.base b = I.base c := by
  unfold Base.order at h
  split at h
  · rw [Std.LawfulEqOrd.eq_of_compare h]
  · cases h
  · cases h
  · exact (isRead _ hb _ hc [] [] (by rw [Key.eq_of_compareLex h])).1

theorem factors_eq_of_compare : ∀ {fs gs : List (Factor Base)},
    (∀ f ∈ fs, I.DefinesFactor f) → (∀ g ∈ gs, I.DefinesFactor g) → compareFactors fs gs = .eq →
    I.factors fs = I.factors gs
  | [], [], _, _, _ => rfl
  | [], g :: gs, _, _, h => by
    simp only [compareFactors] at h
    split at h <;> cases h
  | f :: fs, [], _, _, h => by
    simp only [compareFactors] at h
    split at h <;> cases h
  | f :: fs, g :: gs, hf, hg, h => by
    simp only [compareFactors] at h
    split at h
    · split at h <;> cases h
    · split at h <;> cases h
    · rename_i hb
      split at h
      · rename_i he
        rw [factors_cons, factors_cons, he,
          base_eq_of_order (hf f List.mem_cons_self).base (hg g List.mem_cons_self).base hb,
          factors_eq_of_compare (fun f h => hf f (List.mem_cons_of_mem _ h))
            (fun g h => hg g (List.mem_cons_of_mem _ h)) h]
      · split at h <;> cases h

end Interpretation

/-- Terms with exact coefficients are ordered by their products alone. -/
theorem Term.order_of_isExact {t u : Term Base} (ht : t.coefficient.isExact = true)
    (hu : u.coefficient.isExact = true) : t.order u = compareFactors t.factors u.factors := by
  rw [order, isInfiniteProduct, isInfiniteProduct, Number.eq_exact_of_isExact ht,
    Number.eq_exact_of_isExact hu]
  cases compareFactors t.factors u.factors <;> rfl

/-- Terms of polynomials are ordered by their products alone. -/
theorem Term.order_eq {t u : Term Base} (ht : t.IsPolynomial) (hu : u.IsPolynomial) :
    t.order u = compareFactors t.factors u.factors := Term.order_of_isExact ht.1 hu.1

end TensorEquations
