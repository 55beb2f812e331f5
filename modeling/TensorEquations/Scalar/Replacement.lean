import TensorEquations.Scalar.Arithmetic

/-!
# Replacement of symbols

Scalars in place of symbols. What holds no replaced symbol stays as it is; around a replaced symbol
the products and sums are evaluated again.

* `Term.rebuild?`, `rebuildSum?` — a product and a sum of which some parts have changed.
* `Scalar.bind?`, `Scalar.bind` — the replacement of several symbols at once.
* `Scalar.replace` — the replacement of one symbol.
-/

namespace TensorEquations

/-- A part of a product or a sum together with what it has become, if it has changed. -/
abbrev Changed (α : Type) := α × Option Scalar

/-- Whether a part has changed. -/
def Changed.isChanged {α : Type} (part : Changed α) : Bool := part.2.isSome

/-- The product of the number `c` and powers of which some have changed, evaluated again in operand
order. -/
def rebuildProduct? (c : Number) (parts : List (Changed (Factor Base))) : Option Scalar :=
  if parts.any Changed.isChanged then
    let keyed := parts.map fun part => ((part.1.map Base.operandKey).operandKey, part)
    let sorted := (sortBy (fun a b => Key.before a.1 b.1) keyed).map (·.2)
    some (Scalar.product ((⟨c, []⟩ : Term Base).operands ++
      sorted.map fun part => part.2.getD (Scalar.ofFactor part.1)))
  else none

/-- A sum of terms of which some have changed, evaluated again in operand order. -/
def rebuildSum? (parts : List (Changed (Term Base))) : Option Scalar :=
  if parts.any Changed.isChanged then
    let (numbers, products) := parts.partition fun part => part.1.isNumber
    let keyed := products.map fun part => ((part.1.map Base.operandKey).operandKey, part)
    let sorted := numbers ++ (sortBy (fun a b => Key.before a.1 b.1) keyed).map (·.2)
    some (Scalar.sum (sorted.map fun part => part.2.getD (Scalar.ofTerm part.1)))
  else none

namespace Base

section Bind

variable (f : String → Option Scalar)

mutual

/-- A base with its symbols replaced, if one of them is. -/
def bind? : Base → Option Scalar
  | .symbol name => f name
  | .group ts => rebuildSum? (bindTerms ts)

/-- The terms with what they become. -/
def bindTerms : List (Term Base) → List (Changed (Term Base))
  | [] => []
  | ⟨c, fs⟩ :: ts => (⟨c, fs⟩, rebuildProduct? c (bindFactors fs)) :: bindTerms ts

/-- The powers with what they become. -/
def bindFactors : List (Factor Base) → List (Changed (Factor Base))
  | [] => []
  | ⟨b, e⟩ :: fs => (⟨b, e⟩, (bind? b).map fun s => s.pow e) :: bindFactors fs

end

end Bind

end Base

namespace Scalar

/-- A scalar with every symbol replaced for which `f` gives a scalar, if there is one. -/
def bind? (s : Scalar) (f : String → Option Scalar) : Option Scalar :=
  rebuildSum? (Base.bindTerms f s.terms)

/-- A scalar with every symbol replaced for which `f` gives a scalar. -/
def bind (s : Scalar) (f : String → Option Scalar) : Scalar := (s.bind? f).getD s

/-- A scalar with one symbol replaced. -/
def replace (s : Scalar) (name : String) (image : Scalar) : Scalar :=
  s.bind fun other => if other = name then some image else none

end Scalar

end TensorEquations
