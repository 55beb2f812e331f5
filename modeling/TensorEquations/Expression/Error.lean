import TensorEquations.LinearSystem.Row
import TensorEquations.Tensor.Error
import TensorEquations.Text.Location
import TensorEquations.Expression.Token

/-!
# Errors of evaluation

* `EvaluationError` — an operation on values that it is not defined for, an unknown name or
  function, a wrong number of arguments, a division by zero.
* `ProgramError` — why a program has no value.
-/

namespace TensorEquations

/-- An operation without a value. Values are given by their descriptions. -/
inductive EvaluationError where
  | expectsTensor (context given : String)
  | expectsLabels (context given : String)
  | expectsSubstitution (context given : String)
  | expectsFactor (given : String)
  | expectsQuantity (context given : String)
  | cannotAdd (left right : String)
  | cannotNegate (given : String)
  | cannotMultiply (left right : String)
  | cannotDivide (divisor : String)
  | divisionByZero
  | noArguments (function : String)
  | argumentCount (function detail : String)
  | unknownName (name : String) (place : Place)
  | unknownFunction (function : String) (place : Place)
  | failed (reason : String)
  deriving DecidableEq, Repr

def EvaluationError.message : EvaluationError → String
  | expectsTensor context given => s!"{context} expects a tensor, got {given}"
  | expectsLabels context given => s!"{context} expects an index list, got {given}"
  | expectsSubstitution context given => s!"{context} expects a substitution, got {given}"
  | expectsFactor given => s!"Scale expects a scalar factor, got {given}"
  | expectsQuantity context given => s!"{context} expects a tensor or scalar, got {given}"
  | cannotAdd left right => s!"Cannot add {left} and {right}"
  | cannotNegate given => s!"Cannot negate {given}"
  | cannotMultiply left right => s!"Cannot multiply {left} and {right}"
  | cannotDivide divisor => s!"Cannot divide by {divisor}"
  | divisionByZero => "Division by zero"
  | noArguments function => s!"{function} expects at least one argument"
  | argumentCount function detail => s!"{function}: {detail}"
  | unknownName name place =>
    "Unknown name '" ++ name ++ s!"' (line {place.line}, col {place.column})"
  | unknownFunction function place =>
    "Unknown function '" ++ function ++ s!"' (line {place.line}, col {place.column})"
  | failed reason => s!"Evaluation failed: {reason}"

/-- Why a program has no value. -/
inductive ProgramError where
  | unexpectedInput (location : Text.Location)
  | evaluation (error : EvaluationError)
  | shape (error : ShapeError)
  | system (error : SystemError)
  deriving DecidableEq, Repr

def ProgramError.message : ProgramError → String
  | unexpectedInput location => "Unexpected input" ++ location.suffix
  | evaluation error => error.message
  | shape error => error.message
  | system error => error.message

/-- An error of a tensor operation during evaluation. -/
def ProgramError.ofTensor : TensorError → ProgramError
  | .shape error => shape error
  | error => evaluation (.failed error.message)

end TensorEquations
