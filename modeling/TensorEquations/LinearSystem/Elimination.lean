import TensorEquations.Scalar.Decimal

/-!
# Elimination with decimals

Row reduction of a matrix that has decimals or infinite values among its entries, where the order of
the steps shows in the rounded results.

* `choosePivot` — the row in which a column is cleared from the others.
* `Elimination.clearColumn` — one column: all other rows become a multiple of themselves minus a
  multiple of the pivot row, without division.
* `eliminate` — all columns; in the end each row is divided by its pivot.
-/

namespace TensorEquations

/-- A row of a matrix. -/
abbrev NumberRow := List Number

/-- Whether a number is a decimal or an integer. -/
def Number.isNumeral : Number → Bool
  | decimal _ => true
  | exact q => q.den == 1
  | _ => false

/-- The magnitude of a numeral. -/
def Number.size (c : Number) : Rat := if c.value < 0 then -c.value else c.value

/-- The first place of the largest magnitude, unless all numerals are zero. -/
def largestPlace (column : List Number) : Option Nat :=
  let largest := (column.map Number.size).foldl (fun m q => if m ≤ q then q else m) 0
  if largest = 0 then none else column.findIdx? (·.size = largest)

/-- The place of the pivot in a column. Among numerals with at least one decimal it is the largest
one; otherwise it is the first number that is not zero, and an undefined one only if there is no
other. -/
def choosePivot (column : List Number) : Option Nat :=
  if column.all Number.isNumeral && column.any Number.isDecimal then largestPlace column
  else
    match column.findIdx? fun c => !c.isZero && !c.isUndefined with
    | some place => some place
    | none => column.findIdx? Number.isUndefined

/-- A matrix in the course of elimination: the columns of the pivots found so far, which belong to
the first rows in order. -/
structure Elimination where
  rows : List NumberRow
  pivots : List Nat

namespace Elimination

/-- The entry of a row. -/
def entry (row : NumberRow) (column : Nat) : Number := row.getD column 0

/-- The multiple `a` of a row minus the multiple `b` of the pivot row. -/
def cancel (a : Number) (row : NumberRow) (b : Number) (pivot : NumberRow) : NumberRow :=
  List.zipWith (fun x y => a * x + -(b * y)) row pivot

/-- A list with the elements at two places exchanged. -/
def exchange {α : Type} (xs : List α) (i j : Nat) : List α :=
  match xs[i]?, xs[j]? with
  | some x, some y => (xs.set i y).set j x
  | _, _ => xs

/-- Clears a column from all rows but that of its pivot, if it has one. -/
def clearColumn (e : Elimination) (column : Nat) : Elimination :=
  let first := e.pivots.length
  match choosePivot ((e.rows.drop first).map (entry · column)) with
  | none => e
  | some place =>
    let rows := exchange e.rows first (first + place)
    let pivot := rows.getD first []
    let cleared := rows.mapIdx fun i row =>
      if i = first || (entry row column).isZero then row
      else cancel (entry pivot column) row (entry row column) pivot
    ⟨cleared, e.pivots ++ [column]⟩

/-- A row with the entries behind its pivot divided by it. -/
def normalize (row : NumberRow) (column : Nat) : NumberRow :=
  row.mapIdx fun i c =>
    if i < column then c else if i = column then 1 else c / entry row column

end Elimination

/-- The reduced form of a matrix with rows of a given width. -/
def eliminate (rows : List NumberRow) (width : Nat) : List NumberRow :=
  let e := (List.range width).foldl Elimination.clearColumn ⟨rows, []⟩
  e.rows.mapIdx fun i row =>
    match e.pivots[i]? with
    | some column => Elimination.normalize row column
    | none => row

end TensorEquations
