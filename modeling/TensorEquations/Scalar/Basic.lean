import TensorEquations.Scalar.Number

/-!
# Scalar expressions

A scalar is a sum of terms, a term a number times a product of powers, and the base of a power is a
symbol or a sum in parentheses.

* `Factor`, `Term` — a power and a product of powers with a coefficient, over any kind of base.
* `Base`, `Scalar` — the bases of the language and the sums over them.
* `Base.fold` — the recursion over the nesting of sums in bases; the sort keys and the written forms
  are instances of it.
* `Scalar.number?`, `Scalar.symbol?`, `Scalar.symbols` — what a scalar is made of.

Terms of a scalar built by the operations of this library are in written order, have nonzero
coefficients and pairwise different products, and the factors of a term are in written order with
nonzero exponents. Two exceptions are numbers alone: the decimal zero is one term, and so is the
undefined value.
-/

namespace TensorEquations

/-- A base raised to an integer power. -/
structure Factor (β : Type) where
  base : β
  exponent : Int
  deriving DecidableEq, Repr

/-- A number times a product of powers. -/
structure Term (β : Type) where
  coefficient : Number
  factors : List (Factor β)
  deriving DecidableEq, Repr

/-- The base of a power: a symbol, or a sum in parentheses. -/
inductive Base where
  | symbol (name : String)
  | group (terms : List (Term Base))
  deriving Repr

/-- A scalar expression: a sum of terms. -/
structure Scalar where
  terms : List (Term Base)
  deriving Repr

/-- The same power over another base. -/
def Factor.map {β γ : Type} (f : β → γ) (x : Factor β) : Factor γ := ⟨f x.base, x.exponent⟩

/-- The same product over other bases. -/
def Term.map {β γ : Type} (f : β → γ) (t : Term β) : Term γ :=
  ⟨t.coefficient, t.factors.map (Factor.map f)⟩

namespace Base

section Fold

variable {α : Type} (symbol : String → α) (group : List (Term α) → α)

mutual

/-- A value for every base: `symbol` gives that of a symbol, `group` that of a sum from the values
of the bases in it. -/
def fold : Base → α
  | .symbol name => symbol name
  | .group terms => group (foldTerms terms)

/-- The terms with every base replaced by its value. -/
def foldTerms : List (Term Base) → List (Term α)
  | [] => []
  | ⟨c, fs⟩ :: ts => ⟨c, foldFactors fs⟩ :: foldTerms ts

/-- The powers with every base replaced by its value. -/
def foldFactors : List (Factor Base) → List (Factor α)
  | [] => []
  | ⟨b, e⟩ :: fs => ⟨fold b, e⟩ :: foldFactors fs

end

theorem foldFactors_eq_map (fs : List (Factor Base)) :
    foldFactors symbol group fs = fs.map (Factor.map (fold symbol group)) := by
  induction fs with
  | nil => rfl
  | cons f fs ih => simp [foldFactors, Factor.map, ih]

theorem foldTerms_eq_map (ts : List (Term Base)) :
    foldTerms symbol group ts = ts.map (Term.map (fold symbol group)) := by
  induction ts with
  | nil => rfl
  | cons t ts ih => simp [foldTerms, Term.map, foldFactors_eq_map, ih]

end Fold

/-! ## Equality -/

mutual

/-- Equality of bases is decidable. -/
def decideEq : (a b : Base) → Decidable (a = b)
  | .symbol s, .symbol t =>
    if h : s = t then isTrue (by rw [h]) else isFalse (by simpa using h)
  | .symbol _, .group _ => isFalse (by simp)
  | .group _, .symbol _ => isFalse (by simp)
  | .group ts, .group us =>
    match decideEqTerms ts us with
    | isTrue h => isTrue (by rw [h])
    | isFalse h => isFalse (by simpa using h)

/-- Equality of term lists is decidable. -/
def decideEqTerms : (ts us : List (Term Base)) → Decidable (ts = us)
  | [], [] => isTrue rfl
  | [], _ :: _ => isFalse (by simp)
  | _ :: _, [] => isFalse (by simp)
  | ⟨c, fs⟩ :: ts, ⟨d, gs⟩ :: us =>
    if h : c = d then
      match decideEqFactors fs gs, decideEqTerms ts us with
      | isTrue h₁, isTrue h₂ => isTrue (by rw [h, h₁, h₂])
      | isFalse h₁, _ => isFalse (by simp [h₁])
      | _, isFalse h₂ => isFalse (by simp [h₂])
    else isFalse (by simp [h])

/-- Equality of products is decidable. -/
def decideEqFactors : (fs gs : List (Factor Base)) → Decidable (fs = gs)
  | [], [] => isTrue rfl
  | [], _ :: _ => isFalse (by simp)
  | _ :: _, [] => isFalse (by simp)
  | ⟨b, e⟩ :: fs, ⟨c, d⟩ :: gs =>
    if h : e = d then
      match decideEq b c, decideEqFactors fs gs with
      | isTrue h₁, isTrue h₂ => isTrue (by rw [h, h₁, h₂])
      | isFalse h₁, _ => isFalse (by simp [h₁])
      | _, isFalse h₂ => isFalse (by simp [h₂])
    else isFalse (by simp [h])

end

instance : DecidableEq Base := decideEq

end Base

deriving instance DecidableEq for Scalar

namespace Scalar

/-- A value for a scalar from the values of its bases. -/
def fold {α : Type} (symbol : String → α) (group : List (Term α) → α) (s : Scalar) : α :=
  group (Base.foldTerms symbol group s.terms)

/-- A number as a scalar; the exact zero has no term. -/
def number (c : Number) : Scalar := if c = 0 then ⟨[]⟩ else ⟨[⟨c, []⟩]⟩

/-- A rational as a scalar. -/
def rational (q : Rat) : Scalar := number (.exact q)

/-- A symbol as a scalar. -/
def symbol (name : String) : Scalar := ⟨[⟨1, [⟨.symbol name, 1⟩]⟩]⟩

instance (n : Nat) : OfNat Scalar n := ⟨rational (n : Rat)⟩

instance : Inhabited Scalar := ⟨⟨[]⟩⟩

/-- The undefined value. -/
def undefined : Scalar := number .undefined

/-- No term at all: the exact zero. -/
def isZero (s : Scalar) : Bool := s.terms.isEmpty

/-- The number that a scalar without bases is. -/
def number? (s : Scalar) : Option Number :=
  match s.terms with
  | [] => some 0
  | [⟨c, []⟩] => some c
  | _ => none

/-- The name, for a scalar that is a single symbol. -/
def symbol? (s : Scalar) : Option String :=
  match s.terms with
  | [⟨.exact q, [⟨.symbol name, 1⟩]⟩] => if q = 1 then some name else none
  | _ => none

/-- The symbols of a scalar, in order and with repetitions. -/
def symbolList : Scalar → List String :=
  fold (fun name => [name]) (fun ts => ts.flatMap fun t => t.factors.flatMap (·.base))

/-- The symbols of a scalar, each once, in order of first occurrence. -/
def symbols (s : Scalar) : List String := s.symbolList.eraseDups

end Scalar

end TensorEquations
