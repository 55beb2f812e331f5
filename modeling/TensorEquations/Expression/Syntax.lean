import TensorEquations.Expression.Token

/-!
# Syntax of the expression language

* `Expression` — numbers, names, calls, lists of labels, the sign and the four operations.
* `Statement`, `Program` — an expression, or one assigned to a name; a program is a list of them.

Names and functions keep the place at which they are written, for messages.
-/

namespace TensorEquations

/-- The four operations. -/
inductive Operation where
  | add
  | sub
  | mul
  | div
  deriving DecidableEq, Repr

/-- An expression. -/
inductive Expression where
  | number (n : Numeral)
  | name (text : String) (place : Place)
  | call (function : String) (place : Place) (arguments : List Expression)
  | labels (labels : List String)
  | neg (e : Expression)
  | binary (op : Operation) (left right : Expression)
  deriving Repr

/-- A statement. -/
inductive Statement where
  | assign (name : String) (value : Expression)
  | value (e : Expression)
  deriving Repr

/-- The statements of a program; empty statements are left out. -/
abbrev Program := List Statement

end TensorEquations
