import TensorEquations.Text.Blank

/-!
# The log

* `LevelChoice` — the level that a caller asks for, and `LevelChoice.resolve` its number.
* `levelName` — the name of a level in the log.
* `loggerName` — the place of a name below the root of the log.
* `Log` — the least level that is written, and whether a file is written beside the console.
* `Log.console`, `Log.file` — what the two of them receive.
-/

namespace TensorEquations

/-- The names that a level may be given by. -/
def levelNames : List (String × Int) :=
  [("CRITICAL", 50), ("FATAL", 50), ("ERROR", 40), ("WARNING", 30), ("WARN", 30), ("INFO", 20),
    ("DEBUG", 10), ("NOTSET", 0)]

/-- The level of a name. -/
def levelOfName? (name : String) : Option Int := levelNames.lookup name

/-- The level from which on the log is written unless another one is asked for. -/
def defaultLevel : Int := 30

/-- The name under which a level is written. -/
def levelName (level : Int) : String :=
  if level = 50 then "CRITICAL"
  else if level = 40 then "ERROR"
  else if level = 30 then "WARNING"
  else if level = 20 then "INFO"
  else if level = 10 then "DEBUG"
  else if level = 0 then "NOTSET"
  else s!"Level {level}"

/-- The capital of a letter; the dotless i and the long s have the capitals I and S. -/
def capital (c : Char) : Char :=
  if c.toNat = 0x131 then 'I' else if c.toNat = 0x17F then 'S' else c.toUpper

/-- A text in capitals, as far as names of levels need it. -/
def capitals (text : String) : String := String.ofList (text.toList.map capital)

/-- The level that a caller asks for. -/
inductive LevelChoice where
  | unset
  | number (level : Int)
  | named (text : String)
  deriving DecidableEq, Repr

/-- A level of an unknown name. -/
structure UnknownLevel where
  text : String
  deriving DecidableEq, Repr

def UnknownLevel.message (e : UnknownLevel) : String := "Unknown log level '" ++ e.text ++ "'"

/-- The number of a level. Without a choice the environment decides, where a name that is unknown
counts for nothing. -/
def LevelChoice.resolve (environment : Option String) : LevelChoice → Except UnknownLevel Int
  | unset => .ok (((environment.map capitals).bind levelOfName?).getD defaultLevel)
  | number level => .ok level
  | named text =>
    match levelOfName? (capitals (Text.trimBlank text)) with
    | some level => .ok level
    | none => .error ⟨text⟩

/-- The root of all names in the log. -/
def rootLogger : String := "peach"

/-- A name below the root; a name that is there already stays. -/
def loggerName (name : String) : String :=
  if name = rootLogger || (rootLogger ++ ".").toList.isPrefixOf name.toList then name
  else rootLogger ++ "." ++ name

/-- What is to be written to the log. -/
structure LogRecord where
  logger : String
  level : Int
  text : String
  deriving DecidableEq, Repr

/-- The name of the thread that writes. -/
def mainThread : String := "MainThread"

namespace LogRecord

/-- The record behind the name of its level. -/
def body (r : LogRecord) : String := s!" [{mainThread}] {r.logger}: {r.text}\n"

/-- A name filled up with spaces to a width. -/
def padded (width : Nat) (text : String) : String :=
  text ++ String.ofList (List.replicate (width - text.length) ' ')

/-- A record on the console. -/
def consoleLine (r : LogRecord) : String := padded 7 (levelName r.level) ++ r.body

/-- A record in a file, without the time. -/
def fileLine (r : LogRecord) : String := levelName r.level ++ r.body

end LogRecord

/-- A configured log. -/
structure Log where
  level : Int := defaultLevel
  hasFile : Bool := false
  deriving DecidableEq, Repr

namespace Log

/-- The least level that is written; a log of level zero leaves it to the default. -/
def threshold (log : Log) : Int := if log.level = 0 then defaultLevel else log.level

/-- How many outputs a log has. -/
def outputs (log : Log) : Nat := if log.hasFile then 2 else 1

/-- Whether a record is written. -/
def accepts (log : Log) (r : LogRecord) : Bool := 0 < r.level && log.threshold ≤ r.level

/-- What the console receives. -/
def console (log : Log) (rs : List LogRecord) : String :=
  String.join ((rs.filter log.accepts).map LogRecord.consoleLine)

/-- What the file receives, if there is one. -/
def file (log : Log) (rs : List LogRecord) : Option String :=
  if log.hasFile then some (String.join ((rs.filter log.accepts).map LogRecord.fileLine)) else none

end Log

end TensorEquations
