import TensorEquations.Scalar.PartReplacement
import TensorEquations.Tensor.Quantity

/-!
# Substitutions

* `Substitution` — an ordered list of replacements `left = right`, and a guard that may refuse
  to change a value.
* `Substitution.applyScalar`, `Substitution.apply` — the replacements one after the other, each on
  the result of the one before, so that a later pair changes what an earlier one has put in.
-/

namespace TensorEquations

/-- Ordered replacements. The guard gives the reason for which a value is not changed, if there
is one. -/
structure Substitution where
  pairs : List (Scalar × Scalar)
  guard : Quantity → Option String := fun _ => none

namespace Substitution

/-- The substitution without replacements. -/
def empty : Substitution := { pairs := [] }

/-- One more replacement after the others. -/
def insert (s : Substitution) (left right : Scalar) : Substitution :=
  { s with pairs := s.pairs ++ [(left, right)] }

def length (s : Substitution) : Nat := s.pairs.length

/-- All replacements on a scalar. -/
def applyScalar (s : Substitution) (x : Scalar) : Scalar :=
  s.pairs.foldl (fun x pair => x.replacePart pair.1 pair.2) x

/-- All replacements on a value, or the reason for which it is refused. -/
def apply (s : Substitution) (q : Quantity) : Except String Quantity :=
  match s.guard q with
  | some reason => .error reason
  | none => .ok (q.map s.applyScalar)

/-- The replacements on a tensor, expanded. -/
def update (s : Substitution) (t : Tensor) : Except String Tensor := do
  let q ← s.apply (.tensor t)
  return q.toTensor.expand

/-- Equality of the replacements in order. -/
def equals (s t : Substitution) : Bool := decide (s.pairs = t.pairs)

/-- One replacement as an equation. -/
def pairText (pair : Scalar × Scalar) : String := s!"{pair.1.message} = {pair.2.message}"

/-- One line for each replacement. -/
def text (s : Substitution) : String := String.join (s.pairs.map fun pair => pairText pair ++ "\n")

/-- All replacements on one line. -/
def form (s : Substitution) : String :=
  "Substitution(" ++ ", ".intercalate (s.pairs.map pairText) ++ ")"

end Substitution

end TensorEquations
