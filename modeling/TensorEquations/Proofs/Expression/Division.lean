import TensorEquations.Expression.Interpreter
import TensorEquations.Proofs.Scalar.Fraction
import TensorEquations.Proofs.Scalar.Simplification
import TensorEquations.Proofs.Tensor.Product

/-!
# Division

A quotient is the numerator times the reciprocal of the divisor, unless the divisor in automatic normal form is zero.
Normal form does not multiply out, so the divisor may be another way of writing zero.

* `Expression.Builds` — an expression made of rationals and symbols with sums, differences and products, and its
  polynomial.
* `Expression.IsProduct`, `IsSum`, `IsFactored` — products of rationals and symbols, sums of these, and products of
  such sums: no sum is a factor in a term of another sum.
* `IsFactored.evaluate` — **the value of a factored expression is zero if its polynomial is.**
* `division_outcome` — **what a quotient is, and which divisors are refused.**
-/

namespace TensorEquations

open MvPolynomial

namespace Expression

variable {vs : Bindings} {e l r n d : Expression} {p q : Poly}

/-! ## Evaluation -/

theorem evaluate_neg {v : Value} (h : e.evaluate vs = .ok v) : (neg e).evaluate vs = v.neg := by
  rw [Expression.evaluate, h]
  rfl

theorem evaluate_binary {op : Operation} {v w : Value} (hl : l.evaluate vs = .ok v) (hr : r.evaluate vs = .ok w) :
    (binary op l r).evaluate vs = op.apply v w := by
  rw [Expression.evaluate, hl, hr]
  rfl

/-! ## Polynomials -/

/-- The expressions made of rationals and symbols with sums, differences and products, and their polynomials. A
rational or symbol may be a number, a name or any other expression with such a value. -/
inductive Builds (vs : Bindings) : Expression → Poly → Prop
  | rational {e : Expression} {c : ℚ} (h : e.evaluate vs = .ok (.scalar (.rational c))) : Builds vs e (C c)
  | symbol {e : Expression} {x : String} (h : e.evaluate vs = .ok (.scalar (.symbol x))) : Builds vs e (X x)
  | neg {e : Expression} {p : Poly} (h : Builds vs e p) : Builds vs (.neg e) (-p)
  | add {l r : Expression} {p q : Poly} (hl : Builds vs l p) (hr : Builds vs r q) :
      Builds vs (.binary .add l r) (p + q)
  | sub {l r : Expression} {p q : Poly} (hl : Builds vs l p) (hr : Builds vs r q) :
      Builds vs (.binary .sub l r) (p - q)
  | mul {l r : Expression} {p q : Poly} (hl : Builds vs l p) (hr : Builds vs r q) :
      Builds vs (.binary .mul l r) (p * q)

/-- **Such an expression has its polynomial as value**, in automatic normal form. -/
theorem Builds.evaluate (h : Builds vs e p) : ∃ s, e.evaluate vs = .ok (.scalar s) ∧ s.Denotes p := by
  induction h with
  | @rational e c h => exact ⟨.rational c, h, Scalar.rational_denotes c⟩
  | @symbol e x h => exact ⟨.symbol x, h, Scalar.symbol_denotes x⟩
  | neg _ ih =>
    obtain ⟨s, hs, hp⟩ := ih
    exact ⟨-s, evaluate_neg hs, hp.neg⟩
  | add _ _ ihl ihr =>
    obtain ⟨s, hs, hp⟩ := ihl
    obtain ⟨t, ht, hq⟩ := ihr
    exact ⟨s + t, evaluate_binary hs ht, hp.add hq⟩
  | sub _ _ ihl ihr =>
    obtain ⟨s, hs, hp⟩ := ihl
    obtain ⟨t, ht, hq⟩ := ihr
    exact ⟨s - t, evaluate_binary hs ht, hp.sub hq⟩
  | mul _ _ ihl ihr =>
    obtain ⟨s, hs, hp⟩ := ihl
    obtain ⟨t, ht, hq⟩ := ihr
    exact ⟨s * t, evaluate_binary hs ht, hp.mul hq⟩

/-! ## Factored expressions -/

/-- A product of rationals and symbols. -/
inductive IsProduct (vs : Bindings) : Expression → Prop
  | rational {e : Expression} {c : ℚ} (h : e.evaluate vs = .ok (.scalar (.rational c))) : IsProduct vs e
  | symbol {e : Expression} {x : String} (h : e.evaluate vs = .ok (.scalar (.symbol x))) : IsProduct vs e
  | neg {e : Expression} (h : IsProduct vs e) : IsProduct vs (.neg e)
  | mul {l r : Expression} (hl : IsProduct vs l) (hr : IsProduct vs r) : IsProduct vs (.binary .mul l r)

/-- A sum of products of rationals and symbols, with rational multiples of such sums. -/
inductive IsSum (vs : Bindings) : Expression → Prop
  | product {e : Expression} (h : IsProduct vs e) : IsSum vs e
  | neg {e : Expression} (h : IsSum vs e) : IsSum vs (.neg e)
  | add {l r : Expression} (hl : IsSum vs l) (hr : IsSum vs r) : IsSum vs (.binary .add l r)
  | sub {l r : Expression} (hl : IsSum vs l) (hr : IsSum vs r) : IsSum vs (.binary .sub l r)
  | scaled {l r : Expression} {c : ℚ} (hl : l.evaluate vs = .ok (.scalar (.rational c))) (hr : IsSum vs r) :
      IsSum vs (.binary .mul l r)
  | scaledBy {l r : Expression} {c : ℚ} (hl : IsSum vs l) (hr : r.evaluate vs = .ok (.scalar (.rational c))) :
      IsSum vs (.binary .mul l r)

/-- A product of such sums. -/
inductive IsFactored (vs : Bindings) : Expression → Prop
  | sum {e : Expression} (h : IsSum vs e) : IsFactored vs e
  | neg {e : Expression} (h : IsFactored vs e) : IsFactored vs (.neg e)
  | mul {l r : Expression} (hl : IsFactored vs l) (hr : IsFactored vs r) : IsFactored vs (.binary .mul l r)

theorem IsProduct.evaluate (h : IsProduct vs e) : ∃ s, e.evaluate vs = .ok (.scalar s) ∧ s.IsTerm := by
  induction h with
  | @rational e c h => exact ⟨.rational c, h, Scalar.rational_isTerm c⟩
  | @symbol e x h => exact ⟨.symbol x, h, Scalar.symbol_isTerm x⟩
  | neg _ ih =>
    obtain ⟨s, hs, hterm⟩ := ih
    exact ⟨-s, evaluate_neg hs, hterm.neg⟩
  | mul _ _ ihl ihr =>
    obtain ⟨s, hs, hterm⟩ := ihl
    obtain ⟨t, ht, hterm'⟩ := ihr
    exact ⟨s * t, evaluate_binary hs ht, hterm.mul hterm'⟩

theorem IsSum.evaluate (h : IsSum vs e) : ∃ s, e.evaluate vs = .ok (.scalar s) ∧ IsExpanded s.terms := by
  induction h with
  | product h =>
    obtain ⟨s, hs, hterm⟩ := h.evaluate
    exact ⟨s, hs, hterm.expanded⟩
  | neg _ ih =>
    obtain ⟨s, hs, hexpanded⟩ := ih
    exact ⟨-s, evaluate_neg hs, Scalar.neg_isExpanded hexpanded⟩
  | add _ _ ihl ihr =>
    obtain ⟨s, hs, hexpanded⟩ := ihl
    obtain ⟨t, ht, hexpanded'⟩ := ihr
    exact ⟨s + t, evaluate_binary hs ht, Scalar.add_isExpanded hexpanded hexpanded'⟩
  | sub _ _ ihl ihr =>
    obtain ⟨s, hs, hexpanded⟩ := ihl
    obtain ⟨t, ht, hexpanded'⟩ := ihr
    exact ⟨s - t, evaluate_binary hs ht, Scalar.add_isExpanded hexpanded (Scalar.neg_isExpanded hexpanded')⟩
  | @scaled l r c hl _ ih =>
    obtain ⟨s, hs, hexpanded⟩ := ih
    exact ⟨.rational c * s, evaluate_binary hl hs, (Scalar.rational_mul_isExpanded c hexpanded).1⟩
  | @scaledBy l r c _ hr ih =>
    obtain ⟨s, hs, hexpanded⟩ := ih
    exact ⟨s * .rational c, evaluate_binary hs hr, (Scalar.rational_mul_isExpanded c hexpanded).2⟩

/-- **The value of a factored expression is zero if its polynomial is**: a product of polynomials is zero only if one
of them is. -/
theorem IsFactored.evaluate (h : IsFactored vs e) :
    ∃ s, e.evaluate vs = .ok (.scalar s) ∧ s.isPolynomial = true ∧ (s.poly = 0 → s.isZero = true) := by
  induction h with
  | sum h =>
    obtain ⟨s, hs, hexpanded⟩ := h.evaluate
    exact ⟨s, hs, Scalar.isPolynomial_iff.mpr hexpanded.flat.isPolynomial,
      (Scalar.isZero_iff_of_isExpanded hexpanded).mpr⟩
  | neg _ ih =>
    obtain ⟨s, hs, hpolynomial, hzero⟩ := ih
    have hneg := (Scalar.denotes_poly hpolynomial).neg
    refine ⟨-s, evaluate_neg hs, hneg.isPolynomial, fun hp => ?_⟩
    rw [hneg.poly_eq, neg_eq_zero] at hp
    exact (Scalar.neg_isZero s).trans (hzero hp)
  | mul _ _ ihl ihr =>
    obtain ⟨s, hs, hpolynomial, hzero⟩ := ihl
    obtain ⟨t, ht, hpolynomial', hzero'⟩ := ihr
    have hmul := (Scalar.denotes_poly hpolynomial).mul (Scalar.denotes_poly hpolynomial')
    refine ⟨s * t, evaluate_binary hs ht, hmul.isPolynomial, fun hp => ?_⟩
    rw [hmul.poly_eq, mul_eq_zero] at hp
    exact Scalar.mul_isZero hpolynomial hpolynomial' (hp.imp hzero hzero')

/-! ## Quotients -/

/-- A quotient by a scalar: the numerator, component by component, times the reciprocal. -/
theorem evaluate_div {a : Quantity} {s : Scalar} (hn : n.evaluate vs = .ok (.quantity a))
    (hd : d.evaluate vs = .ok (.scalar s)) : (binary .div n d).evaluate vs =
      if s = 0 then .error (.evaluation .divisionByZero) else .ok (.quantity (a.map (· * s.inv))) := by
  rw [evaluate_binary hn hd]
  show Value.div (.quantity a) (.scalar s) = _
  rw [Value.div]
  simp only [Scalar.isZero_iff]
  split
  · rfl
  · cases a <;> rfl

/-- **Which divisors are refused.** Let the divisor be built from rationals and symbols with `+`, `-` and `*`, and
let the numerator be any scalar or tensor. The quotient is refused exactly if the divisor in automatic normal form
is zero; this happens only if its polynomial is zero, and always then if the divisor is factored. In all other cases
the quotient is the numerator times the reciprocal of the divisor, and if the polynomial is not zero this divides
every value by it. -/
theorem division_outcome {a : Quantity} (hn : n.evaluate vs = .ok (.quantity a)) (hd : Builds vs d p) :
    let quotient := (binary .div n d).evaluate vs
    ∃ s, d.evaluate vs = .ok (.scalar s) ∧ s.Denotes p ∧
      (quotient = .error (.evaluation .divisionByZero) ↔ s = 0) ∧
      (quotient = .error (.evaluation .divisionByZero) → p = 0) ∧
      (IsFactored vs d → p = 0 → quotient = .error (.evaluation .divisionByZero)) ∧
      (s ≠ 0 → quotient = .ok (.quantity (a.map (· * s.inv)))) ∧
      (p ≠ 0 → s ≠ 0 ∧ ∀ u k, fractions.Denotes u k →
        fractions.Denotes (u * s.inv) (k / algebraMap Poly PolyFraction p)) := by
  intro quotient
  obtain ⟨s, hs, hp⟩ := hd.evaluate
  have hquotient : quotient = _ := evaluate_div hn hs
  have hcaught : quotient = .error (.evaluation .divisionByZero) ↔ s = 0 := by
    rw [hquotient]
    split
    · rename_i h
      exact ⟨fun _ => h, fun _ => rfl⟩
    · rename_i h
      exact ⟨fun herror => (nomatch herror), fun h' => absurd h' h⟩
  have hzero : s = 0 → p = 0 := by
    rintro rfl
    exact hp.poly_eq.symm
  refine ⟨s, hs, hp, hcaught, fun herror => hzero (hcaught.mp herror), fun hfactored h => ?_, fun h => ?_,
    fun h => ?_⟩
  · obtain ⟨t, ht, -, hcancel⟩ := hfactored.evaluate
    obtain rfl : s = t := by
      rw [hs] at ht
      cases ht
      rfl
    exact hcaught.mpr (Scalar.isZero_iff.mp (hcancel (hp.poly_eq.trans h)))
  · rw [hquotient, if_neg h]
  · have hne : algebraMap Poly PolyFraction p ≠ 0 :=
      (map_ne_zero_iff _ (IsFractionRing.injective Poly PolyFraction)).mpr h
    refine ⟨fun h' => h (hzero h'), fun u k hu => ?_⟩
    rw [div_eq_mul_inv]
    exact hu.mul (denotes_inv hp.fraction hne)

/-- Names of symbols. -/
def symbolBindings (names : List String) : Bindings := names.map fun x => (x, .scalar (.symbol x))

/-- A vector divided by `x - y`, and by `x * y - y * x`. -/
theorem division_outcome_vector :
    let v := Tensor.symbolic ["i"] (by decide) 2 "v"
    let vs := ("v", .tensor v) :: symbolBindings ["x", "y"]
    let x := name "x" ⟨1, 6⟩
    let y := name "y" ⟨1, 10⟩
    (binary .div (.name "v" ⟨1, 1⟩) (.binary .sub x y)).evaluate vs =
        .ok (.tensor (v.map (· * (Scalar.symbol "x" - Scalar.symbol "y").inv))) ∧
      (binary .div (.name "v" ⟨1, 1⟩) (.binary .sub (.binary .mul x y) (.binary .mul y x))).evaluate vs =
        .error (.evaluation .divisionByZero) := by
  intro v vs x y
  have hv : (name "v" ⟨1, 1⟩).evaluate vs = .ok (.tensor v) := rfl
  have hx : x.evaluate vs = .ok (.scalar (.symbol "x")) := rfl
  have hy : y.evaluate vs = .ok (.scalar (.symbol "y")) := rfl
  have hxy : Builds vs (.binary .sub x y) (X "x" - X "y") := .sub (.symbol hx) (.symbol hy)
  have hne : (X "x" - X "y" : Poly) ≠ 0 := sub_ne_zero.mpr (X_injective.ne (by decide))
  have hcommuted : Builds vs (.binary .sub (.binary .mul x y) (.binary .mul y x)) (X "x" * X "y" - X "y" * X "x") :=
    .sub (.mul (.symbol hx) (.symbol hy)) (.mul (.symbol hy) (.symbol hx))
  have hfactored : IsFactored vs (.binary .sub (.binary .mul x y) (.binary .mul y x)) :=
    .sum (.sub (.product (.mul (.symbol hx) (.symbol hy))) (.product (.mul (.symbol hy) (.symbol hx))))
  constructor
  · obtain ⟨s, hs, -, -, -, -, hquotient, hdivides⟩ := division_outcome hv hxy
    rw [evaluate_binary hx hy] at hs
    cases hs
    exact hquotient (hdivides hne).1
  · obtain ⟨s, -, -, -, -, hrefused, -⟩ := division_outcome hv hcommuted
    exact hrefused hfactored (by ring)

/-- The number one. -/
def one : Expression := .number ⟨['1'], none⟩

theorem evaluate_one (vs : Bindings) : one.evaluate vs = .ok (.scalar (.rational 1)) := by
  have hvalue : Numeral.value ⟨['1'], none⟩ = 1 := by decide +kernel
  show Numeral.evaluate ⟨['1'], none⟩ = _
  rw [Numeral.evaluate, if_neg (by decide), hvalue]

/-- The expression `x * (y + 1) - x * y - x`. -/
def hiddenZero : Expression :=
  .binary .sub (.binary .sub (.binary .mul (.name "x" ⟨1, 6⟩) (.binary .add (.name "y" ⟨1, 11⟩) one))
    (.binary .mul (.name "x" ⟨1, 20⟩) (.name "y" ⟨1, 24⟩))) (.name "x" ⟨1, 28⟩)

/-- **A divisor whose polynomial is zero is accepted**, and the quotient is infinite when it is expanded. -/
theorem hidden_zero_accepted :
    let vs := symbolBindings ["x", "y"]
    Builds vs hiddenZero 0 ∧
      ∃ s, (binary .div one hiddenZero).evaluate vs = .ok (.scalar s) ∧ s.expand = .number (.infinite 1) := by
  intro vs
  have hx : ∀ place, Builds vs (.name "x" place) (X "x") := fun _ => .symbol rfl
  have hy : ∀ place, Builds vs (.name "y" place) (X "y") := fun _ => .symbol rfl
  have hone : Builds vs one (C 1) := .rational (evaluate_one vs)
  have hzero : X "x" * (X "y" + C 1) - X "x" * X "y" - X "x" = (0 : Poly) := by
    rw [C_1]
    ring
  obtain ⟨d, hd, hne, hinfinite⟩ : ∃ d, hiddenZero.evaluate vs = .ok (.scalar d) ∧ d ≠ 0 ∧
      (Scalar.rational 1 * d.inv).expand = .number (.infinite 1) := ⟨_, rfl, by decide +kernel⟩
  refine ⟨hzero ▸ .sub (.sub (.mul (hx _) (.add (hy _) hone)) (.mul (hx _) (hy _))) (hx _), _, ?_, hinfinite⟩
  rw [evaluate_div (evaluate_one vs) hd, if_neg hne]
  rfl

end Expression

end TensorEquations
