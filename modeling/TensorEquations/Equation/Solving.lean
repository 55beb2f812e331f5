import TensorEquations.Equation.Basic

/-!
# Solving an equation

A solve takes the locks of the equation's coefficients, evaluates the body, computes every new
tensor, stores them all, hands the substitution to the other finished coefficients, and releases the
locks in reverse order.

* `Equation.evaluate` — the substitution of an equation.
* `Registry.updates` — the new tensors of the equation's own coefficients.
* `Registry.checkOthers` — tries the substitution on the others before anything is stored.
* `Registry.solve` — the whole solve.
-/

namespace TensorEquations

/-- The new tensor of a coefficient under a substitution; a coefficient that has no tensor has no
new one either. -/
def Substitution.updateStored (s : Substitution) : Option Tensor → Except SolveCause Tensor
  | some t => (s.update t).mapError .refused
  | none =>
    match s.guard (.scalar 0) with
    | some reason => .error (.refused reason)
    | none => .error (.missingTensor (if s.pairs.isEmpty then "expand" else "subs"))

namespace Registry

/-- The values of the names of an equation: the tensors of its coefficients. -/
def bindings (r : Registry) (e : Equation) : Bindings :=
  e.coefficients.foldl (fun vs k =>
    vs.assign k.name (match r.tensor? k with
      | some t => .tensor t
      | none => .nothing)) []

/-- Revisions handed to coefficients one after the other, up to the first one that fails. -/
def hand (r : Registry) : List (CoefficientKey × Revision) → Registry × Option String
  | [] => (r, none)
  | (k, f) :: rest =>
    match r.find? k with
    | none => hand r rest
    | some c =>
      match c.applyOrDefer f with
      | .ok (c, _) => hand (r.put c) rest
      | .error reason => (r, some reason)

/-- All locks of a list taken. -/
def lockAll (r : Registry) (ks : List CoefficientKey) : Registry :=
  ks.foldl (fun r k => r.modify k Coefficient.lock) r

/-- All locks of a list released in its order, with the first failure. -/
def releaseAll (r : Registry) : List CoefficientKey → Registry × Option CoefficientError
  | [] => (r, none)
  | k :: ks =>
    match r.find? k with
    | none => releaseAll r ks
    | some c =>
      let (c, failure) := c.unlock
      let (r, later) := releaseAll (r.put c) ks
      (r, failure.or later)

/-- The new tensors of some coefficients. -/
def updates (r : Registry) (s : Substitution) (ks : List CoefficientKey) :
    Except SolveCause (List (CoefficientKey × Tensor)) :=
  ks.mapM fun k => do
    let t ← s.updateStored (r.tensor? k)
    return (k, t)

/-- The finished coefficients that are not in a list. -/
def others (r : Registry) (ks : List CoefficientKey) : List Coefficient :=
  r.coefficients.filter fun c => c.isFinished && !ks.contains c.key

/-- Tries a substitution on coefficients. -/
def checkOthers (s : Substitution) (cs : List Coefficient) : Except SolveCause Unit :=
  cs.forM fun c => do
    let _ ← s.updateStored c.tensor
    return ()

/-- New tensors stored. -/
def store (r : Registry) (ts : List (CoefficientKey × Tensor)) : Registry :=
  ts.foldl (fun r (k, t) => r.modify k fun c => { c with tensor := some t }) r

/-- A substitution carried out: the tensors of `ks` are replaced, and the other finished
coefficients revised or the revision left to their holders. Nothing changes if it fails on any of them. -/
def carryOut (r : Registry) (s : Substitution) (ks : List CoefficientKey) :
    Except SolveCause Registry := do
  let ts ← r.updates s ks
  let cs := r.others ks
  checkOthers s cs
  match (r.store ts).hand (cs.map fun c => (c.key, s.update)) with
  | (r, none) => return r
  | (_, some reason) => throw (.refused reason)

/-- The substitution of an equation, and the registry with what the evaluation has handed to the
coefficients. -/
def evaluate (r : Registry) (e : Equation) : Registry × Except SolveCause Substitution :=
  match e.given with
  | some g =>
    match r.hand (g.handed.map fun (k, s) => (k, s.update)) with
    | (r, none) => (r, .ok g.substitution)
    | (r, some reason) => (r, .error (.refused reason))
  | none =>
    match ((Interpreter.start (r.bindings e)).evaluate e.reading.expression).1 with
    | .ok (.substitution s) => (r, .ok s)
    | .ok v => (r, .error (.notSubstitution v.kindName))
    | .error error => (r, .error (.program error))

/-- The work of a solve between taking and releasing the locks. -/
def solveLocked (r : Registry) (e : Equation) : Registry × Except SolveCause Substitution :=
  match r.evaluate e with
  | (r, .error cause) => (r, .error cause)
  | (r, .ok s) =>
    match r.carryOut s e.acquisition with
    | .ok r => (r, .ok s)
    | .error cause => (r, .error cause)

/-- A solve: the registry after it, and the substitution or the cause of the failure. -/
def solve (r : Registry) (e : Equation) : Registry × Except SolveCause Substitution :=
  let (r, outcome) := (r.lockAll e.acquisition).solveLocked e
  let (r, failure) := r.releaseAll e.acquisition.reverse
  match outcome, failure with
  | .ok _, some error => (r, .error (.coefficient error))
  | outcome, _ => (r, outcome)

end Registry

end TensorEquations
