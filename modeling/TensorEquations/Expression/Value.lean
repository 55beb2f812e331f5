import TensorEquations.Scalar.Double
import TensorEquations.Substitution.Basic

/-!
# Values of expressions

* `Value` — a quantity, a substitution or a list of labels; a name may also stand for plain data,
  on which no operation is defined.
* `Value.toScalar?`, `Value.toQuantity?` — what a value is where scalars or tensors are expected.
* `Value.describe` — a value in a message.
* `Value.kindName` — the kind of a value in a message.
-/

namespace TensorEquations

/-- What a name may stand for. -/
inductive Value where
  | quantity (q : Quantity)
  | substitution (s : Substitution)
  | labels (labels : List String)
  | nothing
  | integer (n : Int)
  | truth (b : Bool)
  | double (x : Double)
  | list (items : List Value)

instance : Inhabited Value := ⟨.nothing⟩

namespace Value

/-- A scalar value. -/
abbrev scalar (s : Scalar) : Value := quantity (.scalar s)

/-- A tensor value. -/
abbrev tensor (t : Tensor) : Value := quantity (.tensor t)

mutual

/-- The text of a value as an item of a list. -/
def form : Value → String
  | quantity (.scalar s) => s.text
  | quantity (.tensor t) => t.form
  | substitution s => s.form
  | labels ls => labelSet ls
  | nothing => "None"
  | integer n => toString n
  | truth b => truthText b
  | double x => x.text
  | list items => "[" ++ ", ".intercalate (forms items) ++ "]"

def forms : List Value → List String
  | [] => []
  | v :: vs => v.form :: forms vs

end

/-- The scalar that a value is; numbers count as scalars, and a truth value becomes a symbol. -/
def toScalar? : Value → Option Scalar
  | quantity (.scalar s) => some s
  | integer n => some (.rational n)
  | truth b => some (.symbol (truthText b))
  | double x => some (.number x.toNumber)
  | _ => none

/-- The scalar or tensor that a value is. -/
def toQuantity? : Value → Option Quantity
  | quantity q => some q
  | v => v.toScalar?.map .scalar

/-- The rational that a plain number or truth value is. -/
def toRat? : Value → Option Rat
  | integer n => some n
  | truth b => some (if b then 1 else 0)
  | double x => x.toRat?
  | _ => none

/-- Whether a scalar is the exact number for a truth value. -/
def isTruthNumber (s : Scalar) : Value → Bool
  | truth b => s == if b then 1 else 0
  | _ => false

/-- Equality of plain numbers by value, and of scalars. -/
def equalScalars (a b : Value) : Bool :=
  match a.toRat?, b.toRat? with
  | some p, some q => p == q
  | _, _ =>
    match a.toScalar?, b.toScalar? with
    | some s, some t => s == t || isTruthNumber s b || isTruthNumber t a
    | _, _ => false

mutual

/-- Equality of values; values of different kinds are different. -/
def equals : Value → Value → Bool
  | quantity (.tensor a), quantity (.tensor b) => a.equals b
  | substitution a, substitution b => a.equals b
  | labels a, labels b => a == b
  | nothing, nothing => true
  | list as, list bs => equalLists as bs
  | a, b => equalScalars a b

/-- Equality of lists, item by item. -/
def equalLists : List Value → List Value → Bool
  | [], [] => true
  | a :: as, b :: bs => a.equals b && equalLists as bs
  | _, _ => false

end

/-- A value in a message. -/
def describe : Value → String
  | quantity (.tensor t) => s!"tensor {labelSet t.labels}"
  | substitution _ => "substitution"
  | labels ls => s!"index list {labelSet ls}"
  | quantity (.scalar s) => "scalar '" ++ s.message ++ "'"
  | v => "scalar '" ++ v.form ++ "'"

/-- The kind of a scalar by its shape. -/
def scalarKind (s : Scalar) : String :=
  match s.terms with
  | [] => "Zero"
  | [⟨.exact q, []⟩] =>
    if q = 1 then "One" else if q = -1 then "NegativeOne" else if q = 1 / 2 then "Half"
    else if q.den = 1 then "Integer" else "Rational"
  | [⟨.decimal _, []⟩] => "Float"
  | [⟨.infinite _, []⟩] => "ComplexInfinity"
  | [⟨.undefined, []⟩] => "NaN"
  | [⟨c, [f]⟩] =>
    if c = 1 then (if f.exponent = 1 then "Symbol" else "Pow") else "Mul"
  | [_] => "Mul"
  | _ => "Add"

/-- The kind of a value in a message. -/
def kindName : Value → String
  | quantity (.scalar s) => scalarKind s
  | quantity (.tensor _) => "Tensor"
  | substitution _ => "Substitution"
  | labels _ => "IndexList"
  | nothing => "NoneType"
  | integer _ => "int"
  | truth _ => "bool"
  | double _ => "float"
  | list _ => "list"

end Value

end TensorEquations
