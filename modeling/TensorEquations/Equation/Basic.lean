import TensorEquations.Coefficient.Registry
import TensorEquations.Equation.Tag
import TensorEquations.Expression.Interpreter
import TensorEquations.Text.Quoted

/-!
# Equations

An equation is a source text with coefficient tags, and what has become of it.

* `SolveCause`, `SolveError` — why an equation could not be solved.
* `EquationState` — waiting, being solved, solved by a substitution, or failed.
* `Equation` — the source, its reading, and the state.
* `Equation.acquisition` — the order in which a solve takes the locks.
* `Equation.wait` — what someone who waits for the equation finds.
-/

namespace TensorEquations

/-- Why a solve failed. -/
inductive SolveCause where
  | program (error : ProgramError)
  | notSubstitution (kind : String)
  | refused (reason : String)
  | missingTensor (operation : String)
  | coefficient (error : CoefficientError)
  deriving DecidableEq, Repr

def SolveCause.message : SolveCause → String
  | program error => error.message
  | notSubstitution kind => s!"Expression evaluated to {kind}, expected a substitution"
  | refused reason => reason
  | missingTensor operation => "'NoneType' object has no attribute '" ++ operation ++ "'"
  | coefficient error => error.message

/-- An equation that could not be solved, as its form was, and why. Without a cause it was no
longer waiting. -/
structure SolveError where
  equation : String
  cause : Option SolveCause
  deriving DecidableEq, Repr

def SolveError.message (e : SolveError) : String :=
  match e.cause with
  | some cause => s!"Failed to solve {e.equation}: {cause.message}"
  | none => s!"{e.equation} was already solved"

/-- What has become of an equation. -/
inductive EquationState where
  | waiting
  | solving
  | solved (substitution : Substitution)
  | failed (error : SolveError)

namespace EquationState

/-- The name of a state. -/
def text : EquationState → String
  | waiting => "waiting"
  | solving => "solving"
  | solved _ => "solved"
  | failed _ => "failed"

def isWaiting : EquationState → Bool
  | waiting => true
  | _ => false

def isSolving : EquationState → Bool
  | solving => true
  | _ => false

def isSolved : EquationState → Bool
  | solved _ => true
  | _ => false

def isFailed : EquationState → Bool
  | failed _ => true
  | _ => false

/-- A state that is never left. -/
def isTerminal (s : EquationState) : Bool := s.isSolved || s.isFailed

def substitution? : EquationState → Option Substitution
  | solved s => some s
  | _ => none

def error? : EquationState → Option SolveError
  | failed e => some e
  | _ => none

end EquationState

/-- An evaluation that is given and not computed: revisions handed to coefficients on the way, and
the substitution. -/
structure GivenEvaluation where
  handed : List (CoefficientKey × Substitution)
  substitution : Substitution

/-- An equation. -/
structure Equation where
  source : String
  reading : ParsedEquation
  state : EquationState := .waiting
  isScheduled : Bool := false
  listeners : List String := []
  given : Option GivenEvaluation := none

namespace Equation

/-- The coefficients of an equation, each once, in the order of their first tags. -/
def coefficients (e : Equation) : List CoefficientKey :=
  (e.reading.tags.map CoefficientTag.key).eraseDups

/-- Whether there is nothing to solve. -/
def isEmpty (e : Equation) : Bool := e.reading.isEmpty

/-- The source in quotes with the state. -/
def form (e : Equation) : String :=
  s!"Equation({Text.quote (Text.trimBlank e.source)}, {e.state.text})"

/-- The order in which a solve takes the locks, the same for all equations. -/
def acquisition (e : Equation) : List CoefficientKey := CoefficientKey.sort e.coefficients

/-- Whether all coefficients of an equation are finished. -/
def isReady (e : Equation) (r : Registry) : Bool := e.coefficients.all r.isFinished

/-- Whether some coefficient of an equation is held. -/
def isBlocked (e : Equation) (r : Registry) : Bool := e.coefficients.any r.isLocked

/-- What is found without waiting: whether the equation is done, or the error of its solve. -/
def wait (e : Equation) : Except SolveError Bool :=
  if e.isEmpty then .ok true
  else
    match e.state with
    | .failed error => .error error
    | .solved _ => .ok true
    | _ => .ok false

end Equation

end TensorEquations
