import TensorEquations.Expression.Value
import TensorEquations.Substitution.Solving

/-!
# Arithmetic with plain data

Values that are not of the expression language, such as plain numbers and truth values, as operands
beside scalars and tensors.

* `OperandError` — an operation that is not defined for its operands, or one that fails.
* `Value.plus`, `Value.minus`, `Value.times`, `Value.negated` — the operations. Plain operands alone
  give plain numbers. A plain number counts as a scalar beside quantities; a truth value is a number
  beside integers only.
* `Value.length?` — the number of entries of a value that has entries.
* `Value.isWritable` — whether the integers in the text of a value are short enough.
* `Value.solveSystem` — a homogeneous system whose members may be of any kind.
-/

namespace TensorEquations

/-- Why an operation on two values has no result. -/
inductive OperandError where
  | notDefined
  | tensor (error : TensorError)

namespace Double

/-- An operation on finite doubles, rounded. -/
def combine (op : Rat → Rat → Rat) (x y : Double) : Double :=
  match x.toRat?, y.toRat? with
  | some p, some q => ofRat (op p q)
  | _, _ => notANumber

end Double

namespace Value

/-- The integer that a plain integer or a truth value is. -/
def toInt? : Value → Option Int
  | integer n => some n
  | truth b => some (if b then 1 else 0)
  | _ => none

/-- The double that a plain number is. -/
def toDouble? : Value → Option Double
  | double x => some x
  | v => v.toInt?.map fun n => .ofRat n

/-- An operation on plain numbers; it is one on doubles if an operand is a double. -/
def plain? (onIntegers : Int → Int → Int) (onDoubles : Rat → Rat → Rat) (a b : Value) :
    Option Value :=
  match a.toInt?, b.toInt? with
  | some m, some n => some (integer (onIntegers m n))
  | _, _ =>
    match a.toDouble?, b.toDouble? with
    | some x, some y => some (double (x.combine onDoubles y))
    | _, _ => none

/-- Whether a value is a truth value. -/
def isTruth : Value → Bool
  | truth _ => true
  | _ => false

/-- An operand beside one of the other kind: a truth value is a number beside an integer only. -/
def beside (a b : Value) : Option Quantity :=
  match a, b with
  | truth _, quantity (.scalar s) =>
    match s.number? with
    | some (.exact q) => if q.den = 1 then a.toInt?.map fun n => .scalar (.rational n) else none
    | _ => none
  | truth _, _ => none
  | a, _ => a.toQuantity?

/-- An operation on quantities, plain numbers counted as scalars. -/
def onQuantities (op : Quantity → Quantity → Except TensorError Quantity) (a b : Value) :
    Except OperandError Value :=
  match a.beside b, b.beside a with
  | some p, some q => ((op p q).map quantity).mapError .tensor
  | _, _ => .error .notDefined

/-- A truth value as a tensor without axes can be added to none, and the labels are looked at
before. -/
def addTruth (t : Tensor) : Except OperandError Value :=
  match t.add (.scalar 0) with
  | .error e => .error (.tensor (.shape e))
  | .ok _ => .error .notDefined

def plus (a b : Value) : Except OperandError Value :=
  match plain? (· + ·) (· + ·) a b, a, b with
  | some v, _, _ => .ok v
  | none, quantity (.tensor t), truth _ => addTruth t
  | none, truth _, quantity (.tensor t) => addTruth t
  | none, a, b => onQuantities (fun p q => (p.add q).mapError .shape) a b

/-- A difference; a truth value has no negative that could be added to a tensor. -/
def minus (a b : Value) : Except OperandError Value :=
  match plain? (· - ·) (· - ·) a b, a, b with
  | some v, _, _ => .ok v
  | none, truth _, quantity (.tensor t) => addTruth t
  | none, a, b => onQuantities (fun p q => (p.sub q).mapError .shape) a b

/-- A product; a tensor without components can be multiplied by anything. -/
def times (a b : Value) : Except OperandError Value :=
  let bare (t : Tensor) : Except OperandError Value :=
    if t.components.isEmpty then .ok (tensor t) else .error .notDefined
  match plain? (· * ·) (· * ·) a b, a, b with
  | some v, _, _ => .ok v
  | none, quantity (.tensor t), truth _ => bare t
  | none, truth _, quantity (.tensor t) => bare t
  | none, a, b => onQuantities Quantity.mul a b

def negated (a : Value) : Except OperandError Value :=
  match a with
  | quantity q => .ok (quantity q.neg)
  | double (.finite negative m) => .ok (double (.finite (!negative) m))
  | double (.infinite negative) => .ok (double (.infinite !negative))
  | double .notANumber => .ok (double .notANumber)
  | a =>
    match a.toInt? with
    | some n => .ok (integer (-n))
    | none => .error .notDefined

/-- The number of entries. -/
def length? : Value → Option Nat
  | substitution s => some s.length
  | labels ls => some ls.length
  | list items => some items.length
  | _ => none

mutual

/-- Whether the integers in the text of a value are short enough. -/
def isWritable : Value → Bool
  | quantity (.scalar s) => s.isWritable
  | quantity (.tensor t) => t.toList.all Scalar.isWritable
  | substitution s => s.pairs.all fun p => p.1.isWritable && p.2.isWritable
  | list items => areWritable items
  | _ => true

def areWritable : List Value → Bool
  | [] => true
  | v :: vs => v.isWritable && areWritable vs

end

/-! ## Systems -/

/-- Why members of any kind have no solution as a homogeneous system. -/
inductive MemberError where
  | notScalar (member : Value)
  | system (error : SystemError)

/-- The row of a member; it has to be a scalar. -/
def memberRow (v : Value) : Except MemberError LinearRow :=
  match v.toScalar? with
  | some s => (LinearRow.ofScalar s none).mapError .system
  | none => .error (.notScalar v)

/-- Solves `member = 0` for every member. -/
def solveSystem (members : List Value) : Except MemberError Substitution := do
  let rows ← members.mapM memberRow
  (Substitution.ofRows rows).mapError .system

end Value

end TensorEquations
