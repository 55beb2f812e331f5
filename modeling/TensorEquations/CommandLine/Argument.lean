import TensorEquations.Scalar.Double
import TensorEquations.Text.Integer

/-!
# Arguments of the command line

* `Flag` — the options, which may be shortened as long as they stay unique.
* `Word` — what one argument is by its form.
* `readSolve` — the arguments of the command `solve`, from left to right.
* `Invocation.ofArguments` — what a command line asks for.
-/

namespace TensorEquations.CommandLine

/-- The options. -/
inductive Flag where
  | help
  | dimension
  | out
  | timeout
  | logLevel
  deriving DecidableEq, Repr

/-- Options with their spellings. -/
abbrev FlagTable := List (String × Flag)

/-- The options in front of the command. -/
def mainFlags : FlagTable := [("-h", .help), ("--help", .help)]

/-- The options behind the command. -/
def solveFlags : FlagTable :=
  mainFlags ++
    [("--dimension", .dimension), ("--out", .out), ("--timeout", .timeout),
      ("--log-level", .logLevel)]

/-- What an argument is by its form; a value may be attached to an option. -/
inductive Word where
  | plain (text : String)
  | separator
  | flag (flag : Flag) (isShort : Bool) (attached : Option (List Char))
  | unknown
  deriving DecidableEq, Repr

/-- Whether an argument is a negative number in plain notation; a newline may end it. -/
def isNegativeNumber : List Char → Bool
  | '-' :: cs =>
    let cs := if cs.getLast? = some '\n' then cs.dropLast else cs
    let whole := cs.takeWhile Text.isDecimalDigit
    match cs.drop whole.length with
    | [] => !whole.isEmpty
    | '.' :: fraction => !fraction.isEmpty && fraction.all Text.isDecimalDigit
    | _ => false
  | _ => false

/-- An argument up to its first `=`, and what follows it. -/
def splitAttached (cs : List Char) : List Char × Option (List Char) :=
  let name := cs.takeWhile (· != '=')
  match cs.drop name.length with
  | [] => (name, none)
  | _ :: value => (name, some value)

/-- The options that an argument may be short for: the long ones that start with it, or the one of a
single letter with something attached. -/
def candidates (table : FlagTable) (cs : List Char) : List Word :=
  match cs with
  | '-' :: '-' :: _ =>
    let (name, attached) := splitAttached cs
    (table.filter fun entry => name.isPrefixOf entry.1.toList).map fun entry =>
      .flag entry.2 false attached
  | dash :: letter :: rest =>
    (table.filter fun entry => entry.1.toList == [dash, letter]).map fun entry =>
      .flag entry.2 true (some rest)
  | _ => []

/-- Whether a spelling has a single dash. -/
def isShortSpelling : List Char → Bool
  | '-' :: '-' :: _ => false
  | _ => true

/-- What an argument is; nothing if it is short for several options. -/
def classify (table : FlagTable) (argument : String) : Option Word :=
  let cs := argument.toList
  match cs with
  | '-' :: _ :: _ =>
    let (name, attached) := splitAttached cs
    match table.lookup argument, table.lookup (String.ofList name), attached with
    | some flag, _, _ => some (.flag flag (isShortSpelling cs) none)
    | none, some flag, some value => some (.flag flag (isShortSpelling cs) (some value))
    | _, _, _ =>
      match candidates table cs with
      | [] =>
        if isNegativeNumber cs || cs.contains ' ' then some (.plain argument) else some .unknown
      | [word] => some word
      | _ => none
  | _ => some (.plain argument)

/-- What the arguments are; behind the separator `--` all of them are plain. -/
def classifyAll (table : FlagTable) : List String → Option (List Word)
  | [] => some []
  | argument :: rest =>
    if argument = "--" then some (.separator :: rest.map .plain)
    else do
      let word ← classify table argument
      let words ← classifyAll table rest
      return word :: words

/-- The options of the command `solve`. -/
structure SolveOptions where
  equations : String
  dimension : Int
  out : Option String
  timeout : Option Double
  logLevel : Option String

/-- What a command line asks for. -/
inductive Invocation where
  | help
  | usage
  | solve (options : SolveOptions)

/-- The arguments of the command `solve` as far as they are read; some may be too many. -/
structure Reading where
  equations : Option String := none
  dimension : Int := 3
  out : Option String := none
  timeout : Option Double := none
  logLevel : Option String := none
  hasSurplus : Bool := false

namespace Reading

/-- A value of an option. -/
def set (r : Reading) (flag : Flag) (value : String) : Option Reading :=
  match flag with
  | .help => none
  | .dimension =>
    match Text.readInteger value with
    | .ok n => some { r with dimension := n }
    | .error _ => none
  | .out => some { r with out := some value }
  | .timeout => (Double.ofText? value).map fun x => { r with timeout := some x }
  | .logLevel => some { r with logLevel := some value }

/-- What has been asked for, once all arguments are read. -/
def finish (r : Reading) : Invocation :=
  match r.equations, r.hasSurplus with
  | some path, false =>
    .solve
      { equations := path
        dimension := r.dimension
        out := r.out
        timeout := r.timeout
        logLevel := r.logLevel }
  | _, _ => .usage

end Reading

/-- The option for help with something attached: more letters `h` behind a short one only repeat
it. -/
def readHelp (isShort : Bool) (attached : Option (List Char)) : Invocation :=
  match attached with
  | none => .help
  | some cs => if isShort && !cs.isEmpty && cs.all (· == 'h') then .help else .usage

/-- The arguments of the command `solve` one after the other. The first plain one is the file with
the equations. -/
def readSolve (r : Reading) : List Word → Invocation
  | [] => r.finish
  | .unknown :: words => readSolve { r with hasSurplus := true } words
  | .flag .help isShort attached :: _ => readHelp isShort attached
  | .flag flag _ (some value) :: words =>
    match r.set flag (String.ofList value) with
    | some r => readSolve r words
    | none => .usage
  | .flag flag _ none :: .plain value :: words =>
    match r.set flag value with
    | some r => readSolve r words
    | none => .usage
  | .flag _ _ none :: _ => .usage
  | .plain text :: .separator :: words =>
    if r.equations.isNone then readSolve { r with equations := some text } words
    else readSolve { r with hasSurplus := true } words
  | .plain text :: words =>
    if r.equations.isNone then readSolve { r with equations := some text } words
    else readSolve { r with hasSurplus := true } words
  | .separator :: .plain text :: words =>
    if r.equations.isNone then readSolve { r with equations := some text } words
    else readSolve { r with hasSurplus := true } words
  | .separator :: words => readSolve { r with hasSurplus := true } words

/-- The arguments in front of the command, and the command. -/
def readMain (hasSurplus : Bool) : List String → Invocation
  | [] => if hasSurplus then .usage else .help
  | argument :: rest =>
    if argument = "--" then .usage
    else
      match classify mainFlags argument with
      | some .unknown => readMain true rest
      | some (.flag _ isShort attached) => readHelp isShort attached
      | some (.plain "solve") =>
        match classifyAll solveFlags rest with
        | some words => readSolve { hasSurplus := hasSurplus } words
        | none => .usage
      | _ => .usage

/-- What a command line asks for. -/
def Invocation.ofArguments (arguments : List String) : Invocation := readMain false arguments

end TensorEquations.CommandLine
