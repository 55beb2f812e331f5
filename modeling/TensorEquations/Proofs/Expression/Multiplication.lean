import TensorEquations.Expression.Interpreter
import TensorEquations.Proofs.Tensor.Factors

/-!
# Products in programs

A product of tensors is written with `*`, with calls of `Multiply`, or with both, in any grouping.

* `Expression.Multiplies` — an expression that multiplies the values of some expressions, in order.
* `Tensor.IsProduct` — a tensor with the labels and the components of a product of given factors.
* `Tensor.IsProduct.mul`, `Expression.Multiplies.evaluate` — one multiplication, and all of them: **a product of
  tensors of one dimension has a value, which carries the labels that an odd number of the factors carry.**
* `Expression.equals_of_perm` — **order and grouping do not matter if no label is carried by more than two factors.**
* `Expression.product_not_refused` — labels of more than two factors are not refused.
-/

namespace TensorEquations

open Tensor (carriers HasDimension)

variable {dimension : ℕ} {vs : Bindings} {e : Expression} {es : List Expression} {ts us : List Tensor}
  {t u : Tensor}

/-! ## Calls of `Multiply` -/

theorem Value.combine_append {function : String} {op : Value → Value → Evaluation Value} {as : List Value}
    {a : Value} (h : combine function op as = .ok a) (b : Value) : combine function op (as ++ [b]) = op a b := by
  cases as with
  | nil => cases h
  | cons c as =>
    have hfold : as.foldlM op c = .ok a := h
    show (as ++ [b]).foldlM op c = op a b
    rw [List.foldlM_append, hfold]
    exact bind_pure (op a b)

namespace Expression

theorem evaluateAll_append (vs : Bindings) (es : List Expression) (e : Expression) :
    evaluateAll vs (es ++ [e]) = (do
      let values ← evaluateAll vs es
      let v ← e.evaluate vs
      return values ++ [v]) := by
  induction es with
  | nil =>
    rw [List.nil_append, evaluateAll, evaluateAll]
    rfl
  | cons e' es ih =>
    rw [List.cons_append, evaluateAll, evaluateAll, ih]
    simp

theorem evaluate_multiply (vs : Bindings) (place : Place) (es : List Expression) :
    (call "Multiply" place es).evaluate vs = evaluateAll vs es >>= Value.combine "Multiply" Value.mul := by
  have hfunction : Builtin.ofName? "Multiply" = some .multiply := by decide
  rw [evaluate, hfunction]
  refine bind_congr fun values => ?_
  show Builtin.multiply.call values = _
  unfold Builtin.call
  have hany : Builtin.multiply.signature.mismatch? values.length = none := by
    simp [Builtin.signature, Signature.mismatch?]
  rw [hany]
  rfl

theorem evaluate_multiply_one {place : Place} {v : Value} (h : e.evaluate vs = .ok v) :
    (call "Multiply" place [e]).evaluate vs = .ok v := by
  rw [evaluate_multiply, evaluateAll, evaluateAll, h]
  rfl

/-- A call with one more argument multiplies once more. -/
theorem evaluate_multiply_more {place : Place} {a b : Value}
    (ha : (call "Multiply" place es).evaluate vs = .ok a) (hb : e.evaluate vs = .ok b) :
    (call "Multiply" place (es ++ [e])).evaluate vs = a.mul b := by
  rw [evaluate_multiply] at ha
  obtain ⟨values, hvalues, hcombine⟩ := bind_eq_ok ha
  rw [evaluate_multiply, evaluateAll_append, hvalues, hb]
  exact Value.combine_append hcombine b

/-- An expression that multiplies tensors, with the factors from left to right. -/
inductive Multiplies (vs : Bindings) : Expression → List Tensor → Prop
  | factor {e : Expression} {t : Tensor} (h : e.evaluate vs = .ok (.tensor t)) : Multiplies vs e [t]
  | times {l r : Expression} {ts us : List Tensor} (hl : Multiplies vs l ts) (hr : Multiplies vs r us) :
      Multiplies vs (.binary .mul l r) (ts ++ us)
  | one {place : Place} {e : Expression} {ts : List Tensor} (h : Multiplies vs e ts) :
      Multiplies vs (.call "Multiply" place [e]) ts
  | more {place : Place} {es : List Expression} {e : Expression} {ts us : List Tensor}
      (hes : Multiplies vs (.call "Multiply" place es) ts) (he : Multiplies vs e us) :
      Multiplies vs (.call "Multiply" place (es ++ [e])) (ts ++ us)

/-- A call with some tensors as arguments. -/
theorem multiplies_call (place : Place) {bs : List (Expression × Tensor)} (hne : bs ≠ [])
    (h : ∀ b ∈ bs, b.1.evaluate vs = .ok (.tensor b.2)) :
    Multiplies vs (.call "Multiply" place (bs.map (·.1))) (bs.map (·.2)) := by
  induction bs using List.reverseRecOn with
  | nil => exact absurd rfl hne
  | append_singleton bs b ih =>
    have hlast : Multiplies vs b.1 [b.2] := .factor (h b (List.mem_append_right _ List.mem_cons_self))
    rw [List.map_append, List.map_append]
    by_cases hbs : bs = []
    · subst hbs
      exact .one hlast
    · exact .more (ih hbs fun c hc => h c (List.mem_append_left _ hc)) hlast

/-- Tensors joined by `*` from left to right. -/
theorem multiplies_joined {b : Expression × Tensor} {bs : List (Expression × Tensor)}
    (h : ∀ c ∈ b :: bs, c.1.evaluate vs = .ok (.tensor c.2)) :
    Multiplies vs ((bs.map (·.1)).foldl (.binary .mul) b.1) ((b :: bs).map (·.2)) := by
  induction bs using List.reverseRecOn with
  | nil => exact .factor (h b List.mem_cons_self)
  | append_singleton bs c ih =>
    have hinit := ih fun c' hc' => h c' (List.mem_cons.mpr ((List.mem_cons.mp hc').imp_right
      (List.mem_append_left _)))
    have hlast : Multiplies vs c.1 [c.2] := .factor (h c (by simp))
    rw [List.map_append, List.foldl_append, ← List.cons_append, List.map_append]
    exact .times hinit hlast

end Expression

/-! ## One multiplication -/

namespace Tensor

/-- A tensor with the labels of a product and, if the factors are tensors of polynomials and no label is carried by
more than two of them, with the components of the product. -/
structure IsProduct (dimension : ℕ) (ts : List Tensor) (t : Tensor) : Prop where
  carries : Carries dimension ts t
  sums : (∀ t ∈ ts, t.IsPolynomial) → (∀ l, carriers ts l ≤ 2) → Sums dimension ts t

theorem isProduct_factor (h : t.HasDimension dimension) : IsProduct dimension [t] t :=
  ⟨carries_factor h, fun hpoly _ => sums_factor (hpoly t List.mem_cons_self)⟩

/-- **Two products multiplied** are a product of all their factors. -/
theorem IsProduct.mul (hd : 1 ≤ dimension) (ht : IsProduct dimension ts t) (hu : IsProduct dimension us u) :
    ∃ c, Value.mul (.tensor t) (.tensor u) = .ok (.tensor c) ∧ IsProduct dimension (ts ++ us) c := by
  obtain ⟨c, hc, hcontracts⟩ := exists_product hd ht.carries.hasDimension hu.carries.hasDimension
  refine ⟨c, ?_, ht.carries.product hu.carries hcontracts, ?_⟩
  · show Value.ofTensor (t.product u) = _
    rw [hc]
    rfl
  · intro hpoly htwo
    have hle : ∀ l, carriers ts l ≤ 2 ∧ carriers us l ≤ 2 := by
      intro l
      have := htwo l
      rw [carriers_append] at this
      omega
    have hts := ht.sums (fun s hs => hpoly s (List.mem_append_left _ hs)) fun l => (hle l).1
    have hus := hu.sums (fun s hs => hpoly s (List.mem_append_right _ hs)) fun l => (hle l).2
    exact hts.product hus ht.carries hu.carries htwo hc hcontracts

end Tensor

/-! ## All multiplications -/

namespace Expression

/-- **The value of a product of tensors of one dimension.** -/
theorem Multiplies.evaluate (hd : 1 ≤ dimension) (h : Multiplies vs e ts)
    (hdim : ∀ t ∈ ts, t.HasDimension dimension) :
    ∃ t, e.evaluate vs = .ok (.tensor t) ∧ Tensor.IsProduct dimension ts t := by
  induction h with
  | @factor e t h => exact ⟨t, h, Tensor.isProduct_factor (hdim t List.mem_cons_self)⟩
  | @times l r ts us _ _ ihl ihr =>
    obtain ⟨t, ht, hproduct⟩ := ihl fun s hs => hdim s (List.mem_append_left _ hs)
    obtain ⟨u, hu, hproduct'⟩ := ihr fun s hs => hdim s (List.mem_append_right _ hs)
    obtain ⟨c, hc, hmul⟩ := hproduct.mul hd hproduct'
    refine ⟨c, ?_, hmul⟩
    rw [Expression.evaluate, ht, hu]
    exact hc
  | one _ ih =>
    obtain ⟨t, ht, hproduct⟩ := ih hdim
    exact ⟨t, evaluate_multiply_one ht, hproduct⟩
  | @more place es e ts us _ _ ihes ihe =>
    obtain ⟨t, ht, hproduct⟩ := ihes fun s hs => hdim s (List.mem_append_left _ hs)
    obtain ⟨u, hu, hproduct'⟩ := ihe fun s hs => hdim s (List.mem_append_right _ hs)
    obtain ⟨c, hc, hmul⟩ := hproduct.mul hd hproduct'
    exact ⟨c, (evaluate_multiply_more ht hu).trans hc, hmul⟩

/-- **Order and grouping do not matter.** If no label is carried by more than two of some tensors of polynomials of
one dimension, all expressions that multiply them, in any order, have values that are equal by label. -/
theorem equals_of_perm (hd : 1 ≤ dimension) {e' : Expression} {ws : Bindings} (h : Multiplies vs e ts)
    (h' : Multiplies ws e' us) (hperm : ts.Perm us) (hdim : ∀ t ∈ ts, t.HasDimension dimension)
    (hpoly : ∀ t ∈ ts, t.IsPolynomial) (htwo : ∀ l, carriers ts l ≤ 2) :
    ∃ t u, e.evaluate vs = .ok (.tensor t) ∧ e'.evaluate ws = .ok (.tensor u) ∧ t.equals u = true := by
  have hdim' : ∀ u ∈ us, u.HasDimension dimension := fun u hu => hdim u (hperm.mem_iff.mpr hu)
  have hpoly' : ∀ u ∈ us, u.IsPolynomial := fun u hu => hpoly u (hperm.mem_iff.mpr hu)
  have htwo' : ∀ l, carriers us l ≤ 2 := fun l => Tensor.carriers_perm hperm l ▸ htwo l
  obtain ⟨t, ht, hproduct⟩ := h.evaluate hd hdim
  obtain ⟨u, hu, hproduct'⟩ := h'.evaluate hd hdim'
  refine ⟨t, u, ht, hu, ?_⟩
  exact (hproduct.sums hpoly htwo).equals hd hperm hproduct.carries hproduct'.carries
    (hproduct'.sums hpoly' htwo')

/-- Names of tensors. -/
def tensorBindings (bs : List (String × Tensor)) : Bindings := bs.map fun b => (b.1, .tensor b.2)

/-- A square matrix of two rows. -/
def matrix (row column : String) (nodup : [row, column].Nodup) (name : String) : Tensor :=
  .symbolic [row, column] nodup 2 name

/-- The expressions `A * (B * C)` and `Multiply(C, A, B)` for three matrices: the first product of the second one
sums over nothing, and the labels of its value have another order. -/
theorem equals_of_perm_matrices :
    let A := matrix "i" "j" (by decide) "A"
    let B := matrix "j" "k" (by decide) "B"
    let C := matrix "k" "l" (by decide) "C"
    let vs := tensorBindings [("A", A), ("B", B), ("C", C)]
    ∃ t u, (binary .mul (.name "A" ⟨1, 1⟩) (.binary .mul (.name "B" ⟨1, 6⟩) (.name "C" ⟨1, 10⟩))).evaluate vs =
        .ok (.tensor t) ∧
      (call "Multiply" ⟨1, 1⟩ [.name "C" ⟨1, 10⟩, .name "A" ⟨1, 13⟩, .name "B" ⟨1, 16⟩]).evaluate vs =
        .ok (.tensor u) ∧ t.equals u = true := by
  intro A B C vs
  have hA : Multiplies vs (.name "A" ⟨1, 1⟩) [A] := .factor rfl
  have hB : Multiplies vs (.name "B" ⟨1, 6⟩) [B] := .factor rfl
  have hC : Multiplies vs (.name "C" ⟨1, 10⟩) [C] := .factor rfl
  have hcall : Multiplies vs (call "Multiply" ⟨1, 1⟩
      [.name "C" ⟨1, 10⟩, .name "A" ⟨1, 13⟩, .name "B" ⟨1, 16⟩]) [C, A, B] := by
    have hbs : ∀ b ∈ [(name "C" ⟨1, 10⟩, C), (name "A" ⟨1, 13⟩, A), (name "B" ⟨1, 16⟩, B)],
        b.1.evaluate vs = .ok (.tensor b.2) := by
      simp only [List.forall_mem_cons]
      exact ⟨rfl, rfl, rfl, List.forall_mem_nil _⟩
    exact multiplies_call ⟨1, 1⟩ (List.cons_ne_nil _ _) hbs
  have hd : 1 ≤ 2 := by decide
  refine equals_of_perm hd (.times hA (.times hB hC)) hcall (@List.perm_append_comm _ [A, B] [C]) ?_ ?_ ?_
  · simp only [List.cons_append, List.nil_append, List.forall_mem_cons]
    exact ⟨fun _ => rfl, fun _ => rfl, fun _ => rfl, List.forall_mem_nil _⟩
  · simp only [List.cons_append, List.nil_append, List.forall_mem_cons]
    exact ⟨Tensor.symbolic_isPolynomial _ _ _ _, Tensor.symbolic_isPolynomial _ _ _ _,
      Tensor.symbolic_isPolynomial _ _ _ _, List.forall_mem_nil _⟩
  · refine Tensor.carriers_le fun l hl => ?_
    have hall : ∀ l ∈ ["i", "j", "j", "k", "k", "l"], carriers [A, B, C] l ≤ 2 := by decide
    exact hall l hl

/-- **Labels of more than two factors are not refused.** The product of two tensors never fails for a label that
is carried too often, so every product of tensors of one dimension has a value, whatever labels its factors share,
and the value carries the labels that an odd number of factors carry. -/
theorem product_not_refused (hd : 1 ≤ dimension) (h : Multiplies vs e ts)
    (hdim : ∀ t ∈ ts, t.HasDimension dimension) :
    (∀ (a b : Tensor) (l : String), a.product b ≠ .error (.shape (.overusedLabel l))) ∧
      ∃ t, e.evaluate vs = .ok (.tensor t) ∧ t.HasDimension dimension ∧
        ∀ l, l ∈ t.labels ↔ carriers ts l % 2 = 1 := by
  obtain ⟨t, ht, hproduct⟩ := h.evaluate hd hdim
  refine ⟨?_, t, ht, hproduct.carries.hasDimension, hproduct.carries.mem_labels⟩
  intro a b l herror
  obtain hshape | hempty := Tensor.product_error herror
  · cases hshape
  · cases hempty

/-- A vector of two components. -/
def vector (x y : Scalar) : Tensor := .ofFunction ["i"] (by decide) 2 fun index => if index = [0] then x else y

/-- Three vectors of one label. -/
def vectors : List (String × Tensor) := [("v", vector 1 0), ("w", vector 1 0), ("u", vector 0 1)]

/-- The expression `v * w * u` for three vectors of one label, which the value carries. -/
theorem product_not_refused_vectors :
    ∃ t, (binary .mul (.binary .mul (.name "v" ⟨1, 1⟩) (.name "w" ⟨1, 5⟩)) (.name "u" ⟨1, 9⟩)).evaluate
      (tensorBindings vectors) = .ok (.tensor t) ∧ "i" ∈ t.labels := by
  have hbs : ∀ b ∈ [(name "v" ⟨1, 1⟩, vector 1 0), (name "w" ⟨1, 5⟩, vector 1 0), (name "u" ⟨1, 9⟩, vector 0 1)],
      b.1.evaluate (tensorBindings vectors) = .ok (.tensor b.2) := by
    simp only [List.forall_mem_cons]
    exact ⟨rfl, rfl, rfl, List.forall_mem_nil _⟩
  have hd : 1 ≤ 2 := by decide
  have hdim : ∀ t ∈ vectors.map (·.2), t.HasDimension 2 := by
    have hall : ∀ t ∈ vectors.map (·.2), t.dimension = 2 := by decide
    exact fun t ht _ => hall t ht
  obtain ⟨-, t, ht, -, hlabels⟩ := product_not_refused hd (multiplies_joined hbs) hdim
  exact ⟨t, ht, (hlabels "i").mpr (by decide)⟩

/-- The components of the tensor that an outcome is. -/
def componentsOf? (v : Evaluation Value) : Option (List Scalar) :=
  match v with
  | .ok (.quantity (.tensor t)) => some t.toList
  | _ => none

/-- A label of three vectors is accepted, in a call and between operators, and the value depends on their order. -/
theorem label_of_three_accepted :
    (∀ t ∈ vectors.map (·.2), t.dimension = 2) ∧ carriers (vectors.map (·.2)) "i" = 3 ∧
      componentsOf? ((call "Multiply" ⟨1, 1⟩ [.name "v" ⟨1, 10⟩, .name "w" ⟨1, 13⟩, .name "u" ⟨1, 16⟩]).evaluate
        (tensorBindings vectors)) = some [0, 1] ∧
      componentsOf? ((call "Multiply" ⟨1, 1⟩ [.name "u" ⟨1, 10⟩, .name "v" ⟨1, 13⟩, .name "w" ⟨1, 16⟩]).evaluate
        (tensorBindings vectors)) = some [0, 0] ∧
      componentsOf? ((binary .mul (.binary .mul (.name "v" ⟨1, 1⟩) (.name "w" ⟨1, 5⟩)) (.name "u" ⟨1, 9⟩)).evaluate
        (tensorBindings vectors)) = some [0, 1] := by
  decide +kernel

end Expression

end TensorEquations
