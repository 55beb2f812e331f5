import TensorEquations.LinearSystem.Elimination
import TensorEquations.LinearSystem.Reduction
import TensorEquations.LinearSystem.Row

/-!
# Solving linear systems

* `columnOrder` — the order of the variables as columns.
* `LinearRow.entries` — a row as entries for these columns and the constant.
* `PivotRow.pair` — the pair `pivot = rest` of a row of rationals.
* `readRow` — the same for a row with other numbers, which need not start with one.
* `solveRows` — the pairs of a system, by column of the pivot.
-/

namespace TensorEquations

/-- Puts the first variable of a row at `place`, taken out from where it was. -/
def promote (columns : List String) (place : Nat) (name : String) : List String :=
  let others := columns.erase name
  others.take place ++ name :: others.drop place

/-- Appends the names that are not there yet. -/
def appendNew (columns : List String) (names : List String) : List String :=
  names.foldl (fun columns name => if columns.contains name then columns else columns ++ [name])
    columns

/-- The columns after one more row, and the place for the next first variable. -/
def addColumns (state : List String × Nat) (row : LinearRow) : List String × Nat :=
  match row.unknowns with
  | [] => state
  | first :: others => (appendNew (promote state.1 state.2 first) others, state.2 + 1)

/-- The variables of all rows: each first variable moves to the place after the one of the row
before, all others are appended as they come. -/
def columnOrder (rows : List LinearRow) : List String := (rows.foldl addColumns ([], 0)).1

/-- The coefficients of the columns, and the constant. -/
def LinearRow.entries (columns : List String) (r : LinearRow) : List Number :=
  columns.map r.coefficient ++ [r.constant]

/-! ## Rows of rationals -/

/-- What the pivot variable of a row equals: minus the constant and the other variables. -/
def PivotRow.rest (columns : List String) (p : PivotRow) : Scalar :=
  let later := (columns.zip p.entries).drop (p.column + 1)
  Scalar.sum ((Scalar.rational (-(p.entries.getD columns.length 0))) ::
    later.map fun (name, c) => .rational (-c) * .symbol name)

/-- The pair of a pivot row; a pivot behind all columns is the equation `0 = -1`. -/
def PivotRow.pair (columns : List String) (place : Nat) (p : PivotRow) :
    Except SystemError (String × Scalar) :=
  match columns[p.column]? with
  | some name => .ok (name, p.rest columns)
  | none => .error (.inconsistent place (-1))

/-- The pairs of a list of pivot rows, the first of which stands at `place`. -/
def pairsFrom (columns : List String) (place : Nat) :
    List PivotRow → Except SystemError (List (String × Scalar))
  | [] => .ok []
  | p :: ps => do
    let pair ← p.pair columns place
    let pairs ← pairsFrom columns (place + 1) ps
    return pair :: pairs

/-! ## Rows of other numbers -/

/-- The pair of a reduced row: minus the constant, then minus the later variables one by one. -/
def readRow (columns : List String) (place : Nat) (row : NumberRow) :
    Except SystemError (String × Scalar) :=
  let constant := -row.getD columns.length 0
  match (columns.zip row).filter (·.2 ≠ 0) with
  | [] => .error (.inconsistent place constant)
  | (name, c) :: later =>
    if c ≠ 1 then .error (.unscaled place c)
    else .ok (name, later.foldl (fun rest (other, d) => rest + .number (-d) * .symbol other)
      (.number constant))

/-- The pairs of a list of reduced rows up to the first zero row. -/
def readRows (columns : List String) (place : Nat) :
    List NumberRow → Except SystemError (List (String × Scalar))
  | [] => .ok []
  | row :: rows => do
    if row.all (· = 0) then return []
    let pair ← readRow columns place row
    let pairs ← readRows columns (place + 1) rows
    return pair :: pairs

/-- The solved form of a system of rows. -/
def solveRows (rows : List LinearRow) : Except SystemError (List (String × Scalar)) :=
  let columns := columnOrder rows
  let entries := rows.map (·.entries columns)
  match entries.mapM fun row => row.mapM Number.rational? with
  | some rationals => pairsFrom columns 0 (PivotRow.reduce rationals)
  | none => readRows columns 0 (eliminate entries (columns.length + 1))

end TensorEquations
