import TensorEquations.Expression.Operation
import TensorEquations.Expression.Parser

/-!
# Running programs

* `Bindings` — the values of the names, in order of first assignment.
* `Expression.evaluate` — the value of an expression; operands and arguments come first, from left
  to right.
* `runStatements` — statements in order; the assignments before a failing statement stay.
* `Interpreter` — the variables and the value of the last program that had one.
-/

namespace TensorEquations

/-- The values of names. -/
abbrev Bindings := List (String × Value)

/-- A name takes a value; a name that has one keeps its place. -/
def Bindings.assign (vs : Bindings) (name : String) (v : Value) : Bindings :=
  match vs with
  | [] => [(name, v)]
  | (other, w) :: vs =>
    if other = name then (name, v) :: vs else (other, w) :: Bindings.assign vs name v

/-- The value of a number as written. -/
def Numeral.evaluate (n : Numeral) : Evaluation Value :=
  if Text.digitLimit < n.width then
    .error (.evaluation (.failed (Text.digitLimitMessage n.width)))
  else .ok (.scalar (.rational n.value))

mutual

/-- The value of an expression. -/
def Expression.evaluate (vs : Bindings) : Expression → Evaluation Value
  | .number n => n.evaluate
  | .name text place =>
    match vs.lookup text with
    | some v => .ok v
    | none => .error (.evaluation (.unknownName text place))
  | .labels ls => .ok (.labels ls)
  | .neg e => do
    let v ← e.evaluate vs
    v.neg
  | .binary op l r => do
    let a ← l.evaluate vs
    let b ← r.evaluate vs
    op.apply a b
  | .call function place arguments => do
    let values ← Expression.evaluateAll vs arguments
    match Builtin.ofName? function with
    | some f => f.call values
    | none => throw (.evaluation (.unknownFunction function place))

/-- The values of a list of expressions. -/
def Expression.evaluateAll (vs : Bindings) : List Expression → Evaluation (List Value)
  | [] => .ok []
  | e :: es => do
    let v ← e.evaluate vs
    let values ← Expression.evaluateAll vs es
    return v :: values

end

/-- The value of a statement and the variables after it. -/
def Statement.run (vs : Bindings) : Statement → Evaluation (Value × Bindings)
  | .value e => do
    let v ← e.evaluate vs
    return (v, vs)
  | .assign name e => do
    let v ← e.evaluate vs
    return (v, vs.assign name v)

/-- The value of the last statement, `value` being that of the one before, and the variables in any
case. -/
def runStatements (vs : Bindings) (value : Value) : Program → Evaluation Value × Bindings
  | [] => (.ok value, vs)
  | s :: ss =>
    match s.run vs with
    | .ok (v, vs) => runStatements vs v ss
    | .error e => (.error e, vs)

/-- The state between programs. -/
structure Interpreter where
  bindings : Bindings
  current : Value

namespace Interpreter

/-- An interpreter with given variables. -/
def start (bindings : Bindings) : Interpreter := ⟨bindings, .nothing⟩

/-- The program of a source text, its comments removed. -/
def program (source : String) : Except Text.Location Program := parse (Text.stripComments source)

/-- Runs a source text. A text that is no program changes nothing; a failing program changes the
variables only. -/
def evaluate (i : Interpreter) (source : String) : Evaluation Value × Interpreter :=
  match program source with
  | .error location => (.error (.unexpectedInput location), i)
  | .ok statements =>
    match runStatements i.bindings .nothing statements with
    | (.ok v, vs) => (.ok v, ⟨vs, v⟩)
    | (.error e, vs) => (.error e, ⟨vs, i.current⟩)

end Interpreter

end TensorEquations
