/-!
# Row reduction

Rows of rationals are solved one at a time against the rows that already have a pivot.

* `PivotRow` — a row whose first nonzero entry is one, with the place of that entry.
* `PivotRow.insert` — one more row: reduced by the pivots so far, scaled, and used to clear its
  pivot from the other rows.
* `PivotRow.reduce` — all rows; the result is the reduced row-echelon form without its zero rows.
-/

namespace TensorEquations

/-- A row with its pivot: the entry at `column` is one, and the entries before it are zero. -/
structure PivotRow where
  column : Nat
  entries : List Rat
  deriving DecidableEq, Repr

namespace PivotRow

/-- Subtracts the multiple of a pivot row that clears its pivot. -/
def clear (p : PivotRow) (row : List Rat) : List Rat :=
  match row[p.column]? with
  | none => row
  | some c => List.zipWith (fun a b => a - c * b) row p.entries

/-- The pivot row of a row that is not zero. -/
def ofRow? (row : List Rat) : Option PivotRow :=
  match row.findIdx? (· ≠ 0) with
  | none => none
  | some column =>
    match row[column]? with
    | none => none
    | some c => some ⟨column, row.map (· / c)⟩

/-- Puts a pivot row in its place by column. -/
def place (p : PivotRow) : List PivotRow → List PivotRow
  | [] => [p]
  | q :: qs => if p.column ≤ q.column then p :: q :: qs else q :: place p qs

/-- One more row. -/
def insert (pivots : List PivotRow) (row : List Rat) : List PivotRow :=
  match ofRow? (pivots.foldl (fun row p => p.clear row) row) with
  | none => pivots
  | some p => p.place (pivots.map fun q => ⟨q.column, p.clear q.entries⟩)

/-- The pivot rows of a list of rows, by column. -/
def reduce (rows : List (List Rat)) : List PivotRow := rows.foldl insert []

end PivotRow

end TensorEquations
