import TensorEquations.CommandLine.Argument
import TensorEquations.CommandLine.Document
import TensorEquations.CommandLine.Path
import TensorEquations.Log
import TensorEquations.Session.Command

/-!
# Running a command line

* `equationLines` — the lines of a file that hold equations.
* `solveAll` — a session with these equations in which every coefficient has got its most general
  tensor.
* `Results` — the final tensors by the names of their coefficients, as lines or as a document.
* `run` — what a command line comes to, given the contents of files.
-/

namespace TensorEquations.CommandLine

/-- Whether a line holds an equation: it is not blank and no comment. -/
def holdsEquation (line : String) : Bool :=
  let cs := Text.trimChars line.toList
  !cs.isEmpty && cs.take 2 != ['/', '/']

/-- The lines of a file that hold equations. -/
def equationLines (contents : String) : List String :=
  (Text.splitLines (String.ofList (Text.unifyLineBreaks contents.toList))).filter holdsEquation

/-- Equations added one after the other, up to the first one that cannot be read. -/
def addAll (s : Session) : List String → Except SessionError Session
  | [] => .ok s
  | line :: lines =>
    match s.perform (.addEquation line) with
    | (s, .ok _) => addAll s lines
    | (_, .error error) => .error error

/-- All coefficients of a session completed in their order by general tensors. -/
def completeAll (s : Session) : Session :=
  s.run (s.registry.keys.map fun k => .completeGeneral ⟨k.shape, k.id⟩ "")

/-- The session of some equations after everything is solved that can be solved. -/
def solveAll (c : Configuration) (lines : List String) : Except SessionError Session := do
  let s ← addAll (.start c) lines
  return completeAll s

/-! ## Results -/

/-- The tensors of the coefficients by name, in the order of the first coefficient of each name. -/
abbrev Results := List (String × Option Tensor)

namespace Results

/-- The tensor of a name; a name that is there keeps its place. -/
def put (rs : Results) (name : String) (t : Option Tensor) : Results :=
  match rs with
  | [] => [(name, t)]
  | (other, u) :: rs =>
    if other = name then (name, t) :: rs else (other, u) :: Results.put rs name t

/-- The results of a session. -/
def ofSession (s : Session) : Results :=
  s.registry.coefficients.foldl (fun rs c => Results.put rs c.name c.tensor) []

/-- The components of a tensor by their indices. -/
def components (t : Option Tensor) : List (String × String) :=
  match t with
  | none => []
  | some t => t.items.map fun (index, s) => (",".intercalate (index.map toString), s.text)

/-- Whether the integers in the components are short enough to be written. -/
def isWritable (rs : Results) : Bool :=
  rs.all fun (_, t) => t.all fun t => t.toList.all Scalar.isWritable

/-- A heading for each coefficient and a line for each of its components. -/
def lines (rs : Results) : String :=
  String.join (rs.map fun (name, t) =>
    "# " ++ name ++ "\n" ++
      String.join ((components t).map fun (label, value) => "[" ++ label ++ "] " ++ value ++ "\n"))

/-- The results as one document. -/
def document (rs : Results) : Document :=
  .object (rs.map fun (name, t) =>
    (name, .object
      [("indices", .list (((t.map Tensor.labels).getD []).map .text)),
        ("components", .object ((components t).map fun (label, value) => (label, .text value)))]))

end Results

/-- What is said of an equation that has not been solved. -/
def complaint (e : Equation) : Option String :=
  match e.wait with
  | .ok true => none
  | .ok false => some ("timeout: " ++ e.form ++ "\n")
  | .error error => some ("error: " ++ error.message ++ "\n")

/-! ## The command -/

/-- What a file holds. -/
inductive Contents where
  | text (s : String)
  | missing
  | unreadable

/-- What a run has printed and what it is to write to a file. -/
structure Report where
  stdout : String
  stderr : String
  output : Option (String × String)

/-- What a command line comes to: a hint at its use, help, an end with a message, a value or a file
that it cannot cope with, or a report. -/
inductive Outcome where
  | usage
  | help
  | failed (message : String)
  | invalid (message : String)
  | unreadable
  | finished (report : Report)

/-- The exit status of an outcome. -/
def Outcome.status : Outcome → Nat
  | usage => 2
  | help => 0
  | failed _ => 1
  | invalid _ => 1
  | unreadable => 1
  | finished report => if report.stderr.isEmpty then 0 else 1

/-- The report of a session; with a path for the output the results go there. -/
def report (s : Session) (out : Option String) : Report :=
  let results := Results.ofSession s
  { stdout := if out.isNone then results.lines else ""
    stderr := String.join (s.equations.filterMap complaint)
    output := out.map fun path => (normalPath path, results.document.render) }

/-- The equations of a file solved. -/
def solveContents (options : SolveOptions) (contents : String) : Outcome :=
  let settings : Settings :=
    { dimension := .integer options.dimension
      limit := (options.timeout.map Setting.double).getD .absent }
  match settings.check with
  | .error error => .invalid error.message
  | .ok c =>
    match solveAll c (equationLines contents) with
    | .ok s =>
      if Results.isWritable (Results.ofSession s) then .finished (report s options.out)
      else .invalid Text.unwritableMessage
    | .error (.tag _ (.tooManyDigits digits) _) => .invalid (TagError.tooManyDigits digits).message
    | .error error => .failed ("error: " ++ error.message)

/-- Whether the level of the log that is asked for is known; the empty text asks for none. -/
def isLevelKnown (level : Option String) : Bool :=
  match level with
  | none => true
  | some text =>
    text.isEmpty ||
      match (LevelChoice.named text).resolve none with
      | .ok _ => true
      | .error _ => false

/-- What to do for a command line: it is done already, or the contents of a file are needed. -/
inductive Plan where
  | done (outcome : Outcome)
  | read (path : String) (next : Contents → Outcome)

/-- The plan for a command line. -/
def plan (arguments : List String) : Plan :=
  match Invocation.ofArguments arguments with
  | .help => .done .help
  | .usage => .done .usage
  | .solve options =>
    if !isLevelKnown options.logLevel then .done .usage
    else
      let path := normalPath options.equations
      .read path fun
        | .text contents => solveContents options contents
        | .missing => .failed ("Equation file not found: " ++ path)
        | .unreadable => .unreadable

end TensorEquations.CommandLine
