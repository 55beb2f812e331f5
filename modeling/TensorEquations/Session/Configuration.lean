import TensorEquations.Scalar.Double
import TensorEquations.Text.Integer
import TensorEquations.Text.Quoted

/-!
# The configuration of a session

* `Setting` — a setting as it is given: a number, a text, or nothing.
* `Settings` — the four settings, with what holds where they are not given.
* `Configuration` — settings that have been checked; the dimension and the number of workers are
  positive, and no limit is negative.
* `Settings.check` — the configuration of settings, or what is wrong with the first bad one.
* `Settings.ofVariables` — the settings that two variables of the environment give.
-/

namespace TensorEquations

/-- A setting as it is given. -/
inductive Setting where
  | absent
  | integer (n : Int)
  | truth (b : Bool)
  | double (x : Double)
  | text (s : String)
  | list (items : List Setting)

instance : Inhabited Setting := ⟨.absent⟩

/-- What is wrong with a setting. -/
inductive ConfigurationError where
  | notInteger (text : String)
  | tooManyDigits (digits : Nat)
  | notNumber (text : String)
  | undefinedNumber
  | outOfRange
  | wrongKind
  | dimension (given : String)
  | workers
  | limit
  deriving DecidableEq, Repr

def ConfigurationError.message : ConfigurationError → String
  | notInteger text =>
    "invalid literal for int() with base 10: " ++ String.ofList ((Text.quote text).toList.take 200)
  | tooManyDigits digits => Text.digitLimitMessage digits
  | notNumber text => "could not convert string to float: " ++ Text.quote text
  | undefinedNumber => "cannot convert float NaN to integer"
  | outOfRange => "number out of range"
  | wrongKind => "setting of a wrong kind"
  | dimension given => "dimension must be positive, got " ++ given
  | workers => "max_workers must be positive when provided"
  | limit => "solve_timeout must be non-negative when provided"

namespace Setting

/-- The integer that a text writes as a setting. -/
def integerOfText (text : String) : Except ConfigurationError Int :=
  match Text.readInteger text with
  | .ok n => .ok n
  | .error .notWritten => .error (.notInteger text)
  | .error (.tooManyDigits digits) => .error (.tooManyDigits digits)

/-- A setting as an integer; a fraction is dropped. -/
def toInteger : Setting → Except ConfigurationError Int
  | integer n => .ok n
  | truth b => .ok (if b then 1 else 0)
  | double (.finite negative m) => .ok (if negative then -m.floor else m.floor)
  | double (.infinite _) => .error .outOfRange
  | double .notANumber => .error .undefinedNumber
  | text s => integerOfText s
  | absent => .error .wrongKind
  | list _ => .error .wrongKind

/-- An integer in double precision, if it is not too large. -/
def doubleOfInteger (n : Int) : Except ConfigurationError Double :=
  match Double.ofRat n with
  | .infinite _ => .error .outOfRange
  | x => .ok x

/-- A setting as a double-precision number. -/
def toDouble : Setting → Except ConfigurationError Double
  | integer n => doubleOfInteger n
  | truth b => .ok (.finite false (if b then 1 else 0))
  | double x => .ok x
  | text s =>
    match Double.ofText? s with
    | some x => .ok x
    | none => .error (.notNumber s)
  | absent => .error .wrongKind
  | list _ => .error .wrongKind

/-- Nothing, zero and the empty text leave a setting open. -/
def isOpen : Setting → Bool
  | absent => true
  | integer n => n == 0
  | truth b => !b
  | double x => x.isZero
  | text s => s.isEmpty
  | list items => items.isEmpty

/-- A setting in a message. -/
def form : Setting → String
  | absent => "None"
  | integer n => toString n
  | truth b => if b then "True" else "False"
  | double x => x.text
  | text s => s
  | list _ => "list"

end Setting

/-- The settings of a session. -/
structure Settings where
  dimension : Setting := .integer 3
  workers : Setting := .absent
  workerName : Setting := .absent
  limit : Setting := .absent

/-- The configuration of a session: the range of all indices, how many equations may be solved at
a time, the name that the workers start with, and how many seconds a wait may take. -/
structure Configuration where
  dimension : Nat
  dimension_pos : 0 < dimension
  workers : Option Nat
  workers_pos : ∀ n, workers = some n → 0 < n
  workerName : Setting
  limit : Option Double
  limit_nonneg : ∀ x, limit = some x → x.isNegative = false

namespace Settings

/-- A setting that may be left out. -/
def optional {α : Type} (read : Setting → Except ConfigurationError α) :
    Setting → Except ConfigurationError (Option α)
  | .absent => .ok none
  | given => (read given).map some

/-- The name that workers start with unless another one is given. -/
def defaultWorkerName : String := "peach-equation"

/-- The configuration of settings: the dimension is checked first, then the workers, then the
limit. -/
def check (s : Settings) : Except ConfigurationError Configuration := do
  let dimension ← s.dimension.toInteger
  if hd : dimension ≤ 0 then throw (.dimension s.dimension.form) else
  let workers ← optional Setting.toInteger s.workers
  if hw : ∃ n, workers = some n ∧ n ≤ 0 then throw .workers else
  let limit ← optional Setting.toDouble s.limit
  if hl : ∃ x, limit = some x ∧ x.isNegative = true then throw .limit else
  return {
    dimension := dimension.toNat
    dimension_pos := by omega
    workers := workers.map Int.toNat
    workers_pos := by
      intro n hn
      obtain ⟨m, hm, rfl⟩ := Option.map_eq_some_iff.mp hn
      have : ¬ m ≤ 0 := fun h => hw ⟨m, hm, h⟩
      omega
    workerName := if s.workerName.isOpen then .text defaultWorkerName else s.workerName
    limit := limit
    limit_nonneg := by
      intro x hx
      cases h : x.isNegative with
      | false => rfl
      | true => exact absurd ⟨x, hx, h⟩ hl }

/-- A variable of the environment as a setting; without it, or if it is empty, `fallback` holds. -/
def ofVariable (fallback : Setting) (given : Option String) :
    Except ConfigurationError Setting :=
  match given with
  | none => .ok fallback
  | some value =>
    if value.isEmpty then .ok fallback else (Setting.integerOfText value).map .integer

/-- The settings that the variables for the dimension and for the workers give. -/
def ofVariables (dimension workers : Option String) : Except ConfigurationError Settings := do
  let dimension ← ofVariable (.integer 3) dimension
  let workers ← ofVariable .absent workers
  return { dimension := dimension, workers := workers }

end Settings

/-- The name of the variable for the dimension. -/
def dimensionVariable : String := "PEACH_DIMENSION"

/-- The name of the variable for the number of workers. -/
def workersVariable : String := "PEACH_MAX_WORKERS"

end TensorEquations
