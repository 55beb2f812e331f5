import TensorEquations.Scalar.Expansion
import TensorEquations.Scalar.Text

/-!
# Linear rows

* `SystemError` — why a list of equations is no solvable linear system.
* `LinearRow` — a linear polynomial: its variables, their coefficients and the constant.
* `LinearRow.ofScalar` — the row of a scalar; a preferred variable comes first.
* `LinearRow.toScalar` — the polynomial that a row stands for.
-/

namespace TensorEquations

/-- A list of equations that is no solvable linear system. -/
inductive SystemError where
  | unspecified
  | described (message : String)
  | severalVariables (term : String)
  | notLinear (term name : String)
  | unscaled (row : Nat) (entry : Number)
  | inconsistent (row : Nat) (value : Number)
  deriving DecidableEq, Repr

def SystemError.message : SystemError → String
  | unspecified => "The substitution is invalid"
  | described message => message
  | severalVariables term => "Term '" ++ term ++ "' is not linear in a single variable"
  | notLinear term name => "Term '" ++ term ++ "' is not linear in '" ++ name ++ "'"
  | unscaled row entry =>
    s!"Reduced row {row} starts with " ++ entry.message ++ " instead of 1"
  | inconsistent row value =>
    s!"Inconsistent system: reduced row {row} reads 0 = " ++ value.message

/-- A linear polynomial. The variables are those with a nonzero coefficient, each once; the first
one is the first choice for a pivot. -/
structure LinearRow where
  unknowns : List String
  coefficients : List (String × Number)
  constant : Number
  deriving Repr

namespace LinearRow

/-- The coefficient of a variable. -/
def coefficient (r : LinearRow) (name : String) : Number :=
  (r.coefficients.lookup name).getD 0

/-- A number added to the coefficient of a name. -/
def addCoefficient (name : String) (c : Number) :
    List (String × Number) → List (String × Number)
  | [] => [(name, 0 + c)]
  | (other, d) :: rest =>
    if other = name then (other, d + c) :: rest else (other, d) :: addCoefficient name c rest

/-- What one expanded term adds to the coefficients and the constant read so far. -/
def addTerm (found : List (String × Number) × Number) (t : Term Base) :
    Except SystemError (List (String × Number) × Number) :=
  let s := Scalar.ofTerm t
  match s.symbols with
  | [] => .ok (found.1, found.2 + t.coefficient)
  | [name] =>
    if t.factors = [⟨.symbol name, 1⟩] then
      .ok (addCoefficient name t.coefficient.settled found.1, found.2)
    else .error (.notLinear s.text name)
  | _ => .error (.severalVariables s.text)

/-- Names in ascending order with the preferred one, if it occurs, in front. -/
def arrange (names : List String) (preferred : Option String) : List String :=
  let sorted := sortBy (fun a b => decide (a < b)) names
  match preferred with
  | some name => if names.contains name then name :: sorted.filter (· != name) else sorted
  | none => sorted

/-- The row of a scalar that is linear after expansion. -/
def ofScalar (s : Scalar) (preferred : Option String) : Except SystemError LinearRow := do
  let (found, constant) ← (operandTerms s.expand.terms).foldlM addTerm ([], 0)
  let coefficients := found.filter (·.2 ≠ 0)
  return { unknowns := arrange (coefficients.map (·.1)) preferred
           coefficients := coefficients
           constant := constant }

/-- The polynomial that a row stands for. -/
def toScalar (r : LinearRow) : Scalar :=
  Scalar.sum (r.coefficients.map fun c => .number c.2 * .symbol c.1) + .number r.constant

end LinearRow

end TensorEquations
