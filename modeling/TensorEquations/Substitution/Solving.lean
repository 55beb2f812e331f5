import TensorEquations.LinearSystem.Solution
import TensorEquations.Substitution.Basic

/-!
# Substitutions from equations

* `Substitution.ofRows`, `Substitution.homogeneous` — solves rows, and `expression = 0` for all expressions at once.
* `Substitution.merge` — reads the replacements of several substitutions as equations and solves
  them together; a single substitution is left as it is.
-/

namespace TensorEquations.Substitution

/-- The substitution of solved pairs. -/
def ofSolved (pairs : List (String × Scalar)) : Substitution :=
  { pairs := pairs.map fun pair => (.symbol pair.1, pair.2) }

/-- Solves the rows that say something. -/
def ofRows (rows : List LinearRow) : Except SystemError Substitution := do
  let pairs ← solveRows (rows.filter fun r => !r.unknowns.isEmpty || !r.constant.isZero)
  return ofSolved pairs

/-- Solves `expression = 0` for every expression. -/
def homogeneous (expressions : List Scalar) : Except SystemError Substitution := do
  let rows ← expressions.mapM fun s => LinearRow.ofScalar s none
  ofRows rows

/-- The row of the equation `left = right`, the terms of the right side taken to the left one by one;
a symbol on the left is preferred as pivot. -/
def rowOfPair (pair : Scalar × Scalar) : Except SystemError LinearRow :=
  LinearRow.ofScalar (pair.2.addends.foldl (· - ·) pair.1) pair.1.symbol?

/-- The solved form of all replacements read as equations. -/
def merge (substitutions : List Substitution) : Except SystemError Substitution :=
  match substitutions with
  | [s] => .ok s
  | _ => do
    let rows ← (substitutions.flatMap (·.pairs)).mapM rowOfPair
    let pairs ← solveRows rows
    return ofSolved pairs

end TensorEquations.Substitution
