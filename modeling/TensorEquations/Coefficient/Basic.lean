import TensorEquations.Coefficient.Key
import TensorEquations.Tensor.Arithmetic

/-!
# Coefficients

A coefficient is an unknown tensor that several equations share. Whoever holds its lock may replace
its tensor; revisions that arrive meanwhile wait in its queue.

* `Revision` — a partial function on tensors.
* `Coefficient` — a coefficient with its tensor, its lock, its queue and its observers.
* `Coefficient.complete` — the first tensor that a coefficient gets, under its own labels.
* `Coefficient.applyOrDefer` — revises a free coefficient at once and queues the revision of a
  held one.
* `Coefficient.unlock` — runs the queue in order of arrival and releases the lock; a revision that
  fails is passed over, and the first failure is the outcome.
-/

namespace TensorEquations

/-- A partial function on tensors; where it has no value it gives the reason. -/
abbrev Revision := Tensor → Except String Tensor

/-- Who is told that a coefficient is finished: an equation, given by its place, or a listener from
outside. -/
inductive Observer where
  | equation (place : Nat)
  | listener (tag : String)
  deriving DecidableEq, Repr

/-- An operation that a coefficient refuses. -/
inductive CoefficientError where
  | shape (error : ShapeError)
  | notLocked (name : String)
  | alreadyFinished (name : String)
  | deferredFailed (name reason : String)
  | notHeld
  deriving DecidableEq, Repr

def CoefficientError.message : CoefficientError → String
  | shape error => error.message
  | notLocked name => s!"{name} must be locked before its tensor is replaced"
  | alreadyFinished name => s!"{name} is already finished"
  | deferredFailed name reason => s!"Deferred substitution failed on {name}: {reason}"
  | notHeld => "release unlocked lock"

/-- An unknown tensor that equations share. -/
structure Coefficient where
  key : CoefficientKey
  tensor : Option Tensor := none
  isFinished : Bool := false
  isLocked : Bool := false
  queue : List Revision := []
  observers : List Observer := []

/-- A tensor after the revisions of a queue in order, and the reason of the first one that failed;
one that fails leaves the tensor as it is. -/
def runQueue (t : Tensor) : List Revision → Tensor × Option String
  | [] => (t, none)
  | f :: queue =>
    match f t with
    | .ok t => runQueue t queue
    | .error reason => ((runQueue t queue).1, some reason)

namespace Coefficient

def name (c : Coefficient) : String := c.key.name

def labels (c : Coefficient) : List String := c.key.labels

/-- The name of a coefficient and whether it is finished. -/
def form (c : Coefficient) : String :=
  s!"Coefficient({c.name}, " ++ (if c.isFinished then "finished" else "open") ++ ")"

/-- The lock taken. -/
def lock (c : Coefficient) : Coefficient := { c with isLocked := true }

/-- Another tensor; only for the holder of the lock. -/
def setTensor (c : Coefficient) (t : Tensor) : Except CoefficientError Coefficient :=
  if c.isLocked then .ok { c with tensor := some t } else .error (.notLocked c.name)

/-- The queue run and emptied and the lock released, with the first failure. -/
def release (c : Coefficient) : Coefficient × Option CoefficientError :=
  match c.tensor with
  | none => ({ c with isLocked := false, queue := [] }, none)
  | some t =>
    let (t, failure) := runQueue t c.queue
    ({ c with tensor := some t, isLocked := false, queue := [] },
      failure.map (.deferredFailed c.name))

/-- Releases the lock, if it is held. -/
def unlock (c : Coefficient) : Coefficient × Option CoefficientError :=
  if c.isLocked then c.release else (c, some .notHeld)

/-- Revises a finished coefficient, or queues the revision while its lock is held. The truth value
says whether the coefficient is finished; an open one stays as it is. -/
def applyOrDefer (c : Coefficient) (f : Revision) : Except String (Coefficient × Bool) :=
  match c.isFinished, c.tensor with
  | true, some t =>
    if c.isLocked then .ok ({ c with queue := c.queue ++ [f] }, true)
    else do
      let t ← f t
      return ({ c with tensor := some t }, true)
  | _, _ => .ok (c, false)

/-- One more observer after the others. -/
def observe (c : Coefficient) (o : Observer) : Coefficient :=
  { c with observers := c.observers ++ [o] }

/-- The final tensor of an open coefficient, under the labels of the coefficient. -/
def complete (c : Coefficient) (t : Tensor) : Except CoefficientError Coefficient :=
  if (t.rank : Int) ≠ c.key.rank then
    .error (.shape (.coefficientRank c.name c.key.rank t.rank))
  else if c.isFinished then .error (.alreadyFinished c.name)
  else do
    let t ← (t.withLabels c.labels).mapError .shape
    return { c with tensor := some t, isFinished := true }

end Coefficient

end TensorEquations
