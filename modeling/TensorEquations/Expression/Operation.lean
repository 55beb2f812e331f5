import TensorEquations.Expression.Error
import TensorEquations.Expression.Syntax
import TensorEquations.Expression.Value
import TensorEquations.Substitution.Solving
import TensorEquations.Tensor.Symmetry

/-!
# Operations and functions of the expression language

* `Value.add`, `Value.neg`, `Value.mul`, `Value.div` — the operations on values; scalars and tensors
  may be mixed where that makes sense.
* `Builtin` — the functions of the language, with their names and parameters.
* `Builtin.apply` — the value of a call.
-/

namespace TensorEquations

/-- The outcome of an evaluation. -/
abbrev Evaluation := Except ProgramError

namespace Value

/-- An operand that has to be a tensor; a scalar counts as a tensor without axes. -/
def asTensor (v : Value) (context : String) : Evaluation Tensor :=
  match v with
  | quantity q => .ok q.toTensor
  | v => .error (.evaluation (.expectsTensor context v.describe))

def asLabels (v : Value) (context : String) : Evaluation (List String) :=
  match v with
  | labels ls => .ok ls
  | v => .error (.evaluation (.expectsLabels context v.describe))

def asSubstitution (v : Value) (context : String) : Evaluation Substitution :=
  match v with
  | substitution s => .ok s
  | v => .error (.evaluation (.expectsSubstitution context v.describe))

/-- The value of a tensor operation that can only fail by the shapes. -/
def ofShaped (result : Except ShapeError Tensor) : Evaluation Value :=
  (result.map tensor).mapError ProgramError.shape

/-- The value of a tensor operation. -/
def ofTensor (result : Except TensorError Tensor) : Evaluation Value :=
  (result.map tensor).mapError ProgramError.ofTensor

/-- The value of solving a system. -/
def ofSystem (result : Except SystemError Substitution) : Evaluation Value :=
  (result.map substitution).mapError ProgramError.system

/-! ## Operations -/

def add (a b : Value) : Evaluation Value :=
  match a, b with
  | quantity (.scalar s), quantity (.scalar t) => .ok (scalar (s + t))
  | quantity p, quantity q => ofShaped (p.toTensor.add q.toTensor)
  | a, b => .error (.evaluation (.cannotAdd a.describe b.describe))

def neg (a : Value) : Evaluation Value :=
  match a with
  | quantity (.scalar s) => .ok (scalar (-s))
  | quantity (.tensor t) => .ok (tensor t.neg)
  | a => .error (.evaluation (.cannotNegate a.describe))

/-- The left operand plus the negated right one. -/
def sub (a b : Value) : Evaluation Value := do
  let b ← b.neg
  a.add b

def mul (a b : Value) : Evaluation Value :=
  match a, b with
  | quantity (.scalar s), quantity (.scalar t) => .ok (scalar (s * t))
  | quantity (.tensor s), quantity (.scalar t) => .ok (tensor (s.scale t))
  | quantity (.scalar s), quantity (.tensor t) => .ok (tensor (t.scale s))
  | quantity (.tensor s), quantity (.tensor t) => ofTensor (s.product t)
  | a, b => .error (.evaluation (.cannotMultiply a.describe b.describe))

/-- The left operand times the reciprocal of a scalar. -/
def div (a b : Value) : Evaluation Value :=
  match b with
  | quantity (.scalar s) =>
    if s.isZero then .error (.evaluation .divisionByZero) else a.mul (scalar s.inv)
  | b => .error (.evaluation (.cannotDivide b.describe))

/-- All values combined from left to right. -/
def combine (function : String) (op : Value → Value → Evaluation Value) :
    List Value → Evaluation Value
  | [] => .error (.evaluation (.noArguments function))
  | v :: vs => vs.foldlM op v

end Value

/-- The value of one of the four operations. -/
def Operation.apply : Operation → Value → Value → Evaluation Value
  | .add => Value.add
  | .sub => Value.sub
  | .mul => Value.mul
  | .div => Value.div

/-! ## Functions -/

/-- The functions of the language. -/
inductive Builtin where
  | homogeneousSystem
  | renameIndices
  | add
  | subtract
  | multiply
  | scale
  | symmetrize
  | antiSymmetrize
  | blockSymmetrize
  | exchangeSymmetrize
  | substitute
  | mergeSubstitutions
  | expand
  deriving DecidableEq, Repr

/-- What a function asks for: its internal name, its parameters, and whether more arguments may
follow. -/
structure Signature where
  name : String
  parameters : List String
  variadic : Bool
  deriving DecidableEq, Repr

namespace Signature

/-- Names in quotes, listed in words. -/
def listed : List String → String
  | [] => ""
  | [a] => "'" ++ a ++ "'"
  | [a, b] => "'" ++ a ++ "' and '" ++ b ++ "'"
  | names =>
    ", ".intercalate (names.dropLast.map fun a => "'" ++ a ++ "'") ++ ", and '" ++
      names.getLastD "" ++ "'"

/-- The ending of a noun counted `n` times. -/
def plural (n : Nat) : String := if n = 1 then "" else "s"

/-- The past tense of "be" for `n` things. -/
def pastBe (n : Nat) : String := if n = 1 then "was" else "were"

/-- What is wrong with a number of arguments. -/
def mismatch? (s : Signature) (given : Nat) : Option String :=
  let wanted := s.parameters.length
  if given < wanted then
    let absent := s.parameters.drop given
    some (s.name ++ s!"() missing {absent.length} required positional argument" ++
      plural absent.length ++ ": " ++ listed absent)
  else if wanted < given && !s.variadic then
    some (s.name ++ s!"() takes {wanted} positional argument" ++ plural wanted ++
      s!" but {given} " ++ pastBe given ++ " given")
  else none

end Signature

namespace Builtin

/-- All functions. -/
def all : List Builtin :=
  [homogeneousSystem, renameIndices, add, subtract, multiply, scale, symmetrize, antiSymmetrize,
    blockSymmetrize, exchangeSymmetrize, substitute, mergeSubstitutions, expand]

/-- The name of a function in programs. -/
def name : Builtin → String
  | homogeneousSystem => "HomogeneousSystem"
  | renameIndices => "RenameIndices"
  | add => "Add"
  | subtract => "Subtract"
  | multiply => "Multiply"
  | scale => "Scale"
  | symmetrize => "Symmetrize"
  | antiSymmetrize => "AntiSymmetrize"
  | blockSymmetrize => "BlockSymmetrize"
  | exchangeSymmetrize => "ExchangeSymmetrize"
  | substitute => "Substitute"
  | mergeSubstitutions => "MergeSubstitutions"
  | expand => "Expand"

/-- The function of a name. -/
def ofName? (text : String) : Option Builtin := all.find? fun f => f.name = text

/-- The parameters as messages show them. -/
def signature : Builtin → Signature
  | homogeneousSystem => ⟨"_homogeneous_system", ["value"], false⟩
  | renameIndices => ⟨"_rename_indices", ["tensor", "old", "new"], false⟩
  | add => ⟨"_add_all", [], true⟩
  | subtract => ⟨"_subtract", ["lhs", "rhs"], false⟩
  | multiply => ⟨"_multiply_all", [], true⟩
  | scale => ⟨"_scale", ["tensor", "factor"], false⟩
  | symmetrize => ⟨"_symmetrize", ["tensor", "indices"], false⟩
  | antiSymmetrize => ⟨"_antisymmetrize", ["tensor", "indices"], false⟩
  | blockSymmetrize => ⟨"_block_symmetrize", ["tensor"], true⟩
  | exchangeSymmetrize => ⟨"_exchange_symmetrize", ["tensor", "indices"], false⟩
  | substitute => ⟨"_substitute", ["value", "substitution"], false⟩
  | mergeSubstitutions => ⟨"_merge", [], true⟩
  | expand => ⟨"_expand", ["value"], false⟩

/-- The components of a tensor, or the scalar, set to zero. -/
def solveHomogeneous (v : Value) : Evaluation Value :=
  match v with
  | .quantity (.tensor t) => Value.ofSystem (Substitution.homogeneous t.toList)
  | .quantity (.scalar s) => Value.ofSystem (Substitution.homogeneous [s])
  | v => .error (.evaluation (.expectsTensor "HomogeneousSystem" v.describe))

/-- A tensor times a scalar factor. -/
def scaleBy (v factor : Value) : Evaluation Value :=
  match factor with
  | .quantity (.scalar s) => do
    let t ← v.asTensor "Scale"
    return .tensor (t.scale s)
  | factor => .error (.evaluation (.expectsFactor factor.describe))

/-- A substitution applied to a quantity. -/
def substituteIn (v substitution : Value) : Evaluation Value := do
  let s ← substitution.asSubstitution "Substitute"
  match v with
  | .quantity q =>
    (Except.map Value.quantity (s.apply q)).mapError fun reason => .evaluation (.failed reason)
  | v => throw (.evaluation (.expectsQuantity "Substitute" v.describe))

/-- The value of a call whose arguments are as many as they should be. -/
def apply : Builtin → List Value → Evaluation Value
  | homogeneousSystem, [v] => solveHomogeneous v
  | renameIndices, [v, old, new] => do
    let t ← v.asTensor "RenameIndices"
    let old ← old.asLabels "RenameIndices"
    let new ← new.asLabels "RenameIndices"
    Value.ofShaped (t.rename old new)
  | add, vs => Value.combine "Add" Value.add vs
  | subtract, [a, b] => a.sub b
  | multiply, vs => Value.combine "Multiply" Value.mul vs
  | scale, [v, factor] => scaleBy v factor
  | symmetrize, [v, labels] => do
    let t ← v.asTensor "Symmetrize"
    let labels ← labels.asLabels "Symmetrize"
    Value.ofShaped (t.symmetrize labels true)
  | antiSymmetrize, [v, labels] => do
    let t ← v.asTensor "AntiSymmetrize"
    let labels ← labels.asLabels "AntiSymmetrize"
    Value.ofShaped (t.antisymmetrize labels true)
  | blockSymmetrize, v :: blocks => do
    let t ← v.asTensor "BlockSymmetrize"
    let blocks ← blocks.mapM fun block => block.asLabels "BlockSymmetrize"
    Value.ofShaped (t.blockSymmetrize blocks false)
  | exchangeSymmetrize, [v, labels] => do
    let t ← v.asTensor "ExchangeSymmetrize"
    let labels ← labels.asLabels "ExchangeSymmetrize"
    Value.ofShaped (t.exchangeSymmetrize labels false)
  | substitute, [v, s] => substituteIn v s
  | mergeSubstitutions, vs => do
    let ss ← vs.mapM fun v => v.asSubstitution "MergeSubstitutions"
    Value.ofSystem (Substitution.merge ss)
  | expand, [.quantity q] => .ok (.quantity q.expand)
  | expand, [v] => .error (.evaluation (.expectsQuantity "Expand" v.describe))
  | _, _ => .error (.evaluation (.failed "wrong number of arguments"))

/-- The value of a call. -/
def call (f : Builtin) (arguments : List Value) : Evaluation Value :=
  match f.signature.mismatch? arguments.length with
  | some detail => .error (.evaluation (.argumentCount f.name detail))
  | none => f.apply arguments

end Builtin

end TensorEquations
