import TensorEquations.Equation.Solving
import TensorEquations.Session.Configuration

/-!
# Sessions

A session holds a registry of coefficients and the equations between them. An equation is submitted
to the worker as soon as all its coefficients are finished; the worker solves one equation at a time,
in the order of submission.

* `Session` — the state of a session, with the submissions and the events so far.
* `Session.addEquation`, `Session.complete` — the two ways in which an equation becomes ready.
* `Session.solve` — one equation solved.
* `Session.settle` — the worker's turns, up to the first equation with a coefficient that is held.

An operation gives the state after it in any case, and an error if it has one.
-/

namespace TensorEquations

/-- An operation of a session that fails, or that would never come to an end. -/
inductive SessionError where
  | tag (source : String) (error : TagError) (offset : Nat)
  | coefficient (error : CoefficientError)
  | tensor (error : TensorError)
  | refused (reason : String)
  | solve (error : SolveError)
  | closed
  | wouldBlock
  deriving DecidableEq, Repr

def SessionError.message : SessionError → String
  | tag source error offset => error.message ++ (Text.Location.ofOffset source offset).suffix
  | coefficient error => error.message
  | tensor error => error.message
  | refused reason => reason
  | solve error => error.message
  | closed => "cannot schedule new futures after shutdown"
  | wouldBlock => "a lock is held that is never released"

/-- What a listener is told. -/
inductive Event where
  | coefficientFinished (tag : String) (key : CoefficientKey)
  | equationFinished (tag : String) (place : Nat) (state : EquationState)

/-- The state of a session. The worker has taken the first `taken` submissions. -/
structure Session where
  configuration : Configuration
  registry : Registry := .empty
  equations : List Equation := []
  submissions : List Nat := []
  taken : Nat := 0
  isClosed : Bool := false
  events : List Event := []

namespace Session

/-- The submissions that the worker has not taken yet. -/
def pending (s : Session) : List Nat := s.submissions.drop s.taken

/-- Whether the worker waits for a lock. -/
def isStuck (s : Session) : Bool := !s.pending.isEmpty

def modifyCoefficient (s : Session) (k : CoefficientKey) (f : Coefficient → Coefficient) : Session :=
  { s with registry := s.registry.modify k f }

def modifyEquation (s : Session) (place : Nat) (f : Equation → Equation) : Session :=
  { s with equations := s.equations.modify place f }

/-! ## Submission -/

/-- Submits an equation whose coefficients are finished, unless it is empty or has been submitted
before. A closed session takes no submission. -/
def notify (s : Session) (place : Nat) : Session × Option SessionError :=
  match s.equations[place]? with
  | none => (s, none)
  | some e =>
    if e.isEmpty || e.isScheduled || !e.isReady s.registry then (s, none)
    else
      let s := s.modifyEquation place fun e => { e with isScheduled := true }
      if s.isClosed then (s, some .closed)
      else ({ s with submissions := s.submissions ++ [place] }, none)

/-- Tells observers in order that a coefficient is finished, up to the first one that fails. -/
def announce (s : Session) (k : CoefficientKey) : List Observer → Session × Option SessionError
  | [] => (s, none)
  | .listener tag :: rest =>
    announce { s with events := s.events ++ [.coefficientFinished tag k] } k rest
  | .equation place :: rest =>
    match s.notify place with
    | (s, none) => announce s k rest
    | (s, some error) => (s, some error)

/-! ## Coefficients -/

/-- The coefficient of a key, which is made if there is none. -/
def lookup (s : Session) (k : CoefficientKey) : Session :=
  { s with registry := s.registry.register k }

/-- The final tensor of a coefficient. -/
def complete (s : Session) (k : CoefficientKey) (t : Tensor) : Session × Option SessionError :=
  match s.registry.find? k with
  | none => (s, none)
  | some c =>
    if c.isLocked && (t.rank : Int) == k.rank then (s, some .wouldBlock)
    else
      match c.complete t with
      | .error error => (s, some (.coefficient error))
      | .ok c => { s with registry := s.registry.put c }.announce k c.observers

/-- The most general tensor as the final one; without a name its components are named after the
coefficient. -/
def completeGeneral (s : Session) (k : CoefficientKey) (name : String) :
    Session × Option SessionError :=
  if s.registry.isLocked k then (s, some .wouldBlock)
  else
    match Tensor.general k.labels s.configuration.dimension (if name.isEmpty then k.name else name) with
    | .error error => (s, some (.tensor error))
    | .ok t => s.complete k t

def setTensor (s : Session) (k : CoefficientKey) (t : Tensor) : Session × Option SessionError :=
  match s.registry.find? k with
  | none => (s, none)
  | some c =>
    match c.setTensor t with
    | .error error => (s, some (.coefficient error))
    | .ok c => ({ s with registry := s.registry.put c }, none)

def lock (s : Session) (k : CoefficientKey) : Session × Option SessionError :=
  if s.registry.isLocked k then (s, some .wouldBlock)
  else (s.modifyCoefficient k Coefficient.lock, none)

def unlock (s : Session) (k : CoefficientKey) : Session × Option SessionError :=
  match s.registry.find? k with
  | none => (s, none)
  | some c =>
    let (c, failure) := c.unlock
    ({ s with registry := s.registry.put c }, failure.map .coefficient)

/-- Revises a coefficient or queues the revision, and says whether it is finished. -/
def applyOrDefer (s : Session) (k : CoefficientKey) (f : Revision) :
    Session × Except SessionError Bool :=
  match s.registry.find? k with
  | none => (s, .ok false)
  | some c =>
    match c.applyOrDefer f with
    | .error reason => (s, .error (.refused reason))
    | .ok (c, isFinished) => ({ s with registry := s.registry.put c }, .ok isFinished)

/-! ## Equations -/

/-- A further equation, which observes its coefficients and is submitted at once if all of them are
finished. In a closed session such an equation is not added. -/
def addEquation (s : Session) (code : String) : Session × Option SessionError :=
  match parseEquation code with
  | .error (error, offset) => (s, some (.tag code error offset))
  | .ok reading =>
    let e : Equation := { source := code, reading := reading }
    let place := s.equations.length
    let registry := e.coefficients.foldl (fun r k =>
      (r.register k).modify k fun c => c.observe (.equation place)) s.registry
    if s.isClosed && !e.isEmpty && e.isReady registry then (s, some .closed)
    else { s with registry := registry, equations := s.equations ++ [e] }.notify place

/-- Solves a waiting equation; its listeners are told what has become of it. -/
def solve (s : Session) (place : Nat) : Session × Option SessionError :=
  match s.equations[place]? with
  | none => (s, none)
  | some e =>
    if !e.state.isWaiting then (s, some (.solve ⟨e.form, none⟩))
    else
      let e := { e with state := .solving }
      let (registry, outcome) := s.registry.solve e
      let state := match outcome with
        | .ok substitution => .solved substitution
        | .error cause => .failed ⟨e.form, some cause⟩
      ({ s with
          registry := registry
          equations := s.equations.set place { e with state := state }
          events := s.events ++ e.listeners.map fun tag => .equationFinished tag place state },
        none)

/-- Solves an equation unless that would wait for a lock. -/
def solveNow (s : Session) (place : Nat) : Session × Option SessionError :=
  match s.equations[place]? with
  | none => (s, none)
  | some e => if e.isBlocked s.registry then (s, some .wouldBlock) else s.solve place

/-- Whether an equation cannot be solved yet because a coefficient is held. -/
def isHeldUp (s : Session) (place : Nat) : Bool :=
  s.equations[place]?.any fun e => e.isBlocked s.registry

/-- The worker's turns for some submissions: each is solved, up to the first one that is held up. -/
def work (s : Session) : List Nat → Session
  | [] => s
  | place :: rest =>
    if s.isHeldUp place then s
    else work { (s.solve place).1 with taken := s.taken + 1 } rest

/-- The worker takes all that it can. -/
def settle (s : Session) : Session := s.work s.pending

/-- Whether all equations are done, up to the first one that is not; the first failure is an
error. -/
def waitAll (s : Session) : Except SolveError Bool :=
  go s.equations
where
  /-- The equations one after the other. -/
  go : List Equation → Except SolveError Bool
    | [] => .ok true
    | e :: es =>
      match e.wait with
      | .ok true => go es
      | outcome => outcome

end Session

end TensorEquations
