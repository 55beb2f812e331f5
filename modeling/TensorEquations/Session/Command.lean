import TensorEquations.Session.Basic

/-!
# Commands

* `Command` — what can be asked of a session.
* `Session.perform` — one command and then the worker's turns. The coefficients that a command
  mentions are registered first. While the worker waits for a lock, nothing but the release of a held
  lock is accepted.
* `Session.run` — commands one after the other.
-/

namespace TensorEquations

/-- What can be asked of a session. -/
inductive Command where
  | lookup (coefficient : Mention)
  | addEquation (code : String)
  | complete (coefficient : Mention) (tensor : Tensor)
  | completeGeneral (coefficient : Mention) (name : String)
  | setTensor (coefficient : Mention) (tensor : Tensor)
  | lock (coefficient : Mention)
  | unlock (coefficient : Mention)
  | applyOrDefer (coefficient : Mention) (revision : Revision)
  | observeCoefficient (coefficient : Mention) (tag : String)
  | observeEquation (place : Nat) (tag : String)
  | notify (place : Nat)
  | solve (place : Nat)
  | giveEvaluation (place : Nat) (handed : List (Mention × Substitution)) (substitution : Substitution)
  | close

/-- The coefficients that a command mentions. -/
def Command.mentions : Command → List Mention
  | lookup m => [m]
  | complete m _ => [m]
  | completeGeneral m _ => [m]
  | setTensor m _ => [m]
  | lock m => [m]
  | unlock m => [m]
  | applyOrDefer m _ => [m]
  | observeCoefficient m _ => [m]
  | giveEvaluation _ handed _ => handed.map Prod.fst
  | _ => []

/-- What a command answers: that it is done, or whether a coefficient is finished. -/
inductive Reply where
  | done
  | finished (b : Bool)
  deriving DecidableEq, Repr

namespace Session

/-- The outcome of an operation that has nothing to tell. -/
def outcome (result : Session × Option SessionError) : Session × Except SessionError Reply :=
  match result with
  | (s, none) => (s, .ok .done)
  | (s, some error) => (s, .error error)

/-- A command whose coefficients are registered. -/
def execute (s : Session) : Command → Session × Except SessionError Reply
  | .lookup _ => (s, .ok .done)
  | .addEquation code => outcome (s.addEquation code)
  | .complete m t => outcome (s.complete m.key t)
  | .completeGeneral m name => outcome (s.completeGeneral m.key name)
  | .setTensor m t => outcome (s.setTensor m.key t)
  | .lock m => outcome (s.lock m.key)
  | .unlock m => outcome (s.unlock m.key)
  | .applyOrDefer m f =>
    let (s, isFinished) := s.applyOrDefer m.key f
    (s, isFinished.map .finished)
  | .observeCoefficient m tag =>
    (s.modifyCoefficient m.key fun c => c.observe (.listener tag), .ok .done)
  | .observeEquation place tag =>
    (s.modifyEquation place fun e => { e with listeners := e.listeners ++ [tag] }, .ok .done)
  | .notify place => outcome (s.notify place)
  | .solve place => outcome (s.solveNow place)
  | .giveEvaluation place handed substitution =>
    let given : GivenEvaluation :=
      { handed := handed.map fun (m, s) => (m.key, s)
        substitution := substitution }
    (s.modifyEquation place fun e => { e with given := some given }, .ok .done)
  | .close => ({ s with isClosed := true }, .ok .done)

/-- Whether a command is accepted: while the worker waits for a lock, only the release of a held
one is. -/
def accepts (s : Session) (c : Command) : Bool :=
  !s.isStuck ||
    match c with
    | .unlock m => s.registry.isLocked m.key
    | _ => false

/-- A command and the worker's turns after it. -/
def perform (s : Session) (c : Command) : Session × Except SessionError Reply :=
  if s.accepts c then
    let s := c.mentions.foldl (fun s m => s.lookup m.key) s
    let (s, reply) := s.execute c
    (s.settle, reply)
  else (s, .error .wouldBlock)

/-- Commands one after the other. -/
def run (s : Session) (cs : List Command) : Session := cs.foldl (fun s c => (s.perform c).1) s

/-- A session in which nothing has happened. -/
def start (configuration : Configuration) : Session := { configuration := configuration }

end Session

end TensorEquations
