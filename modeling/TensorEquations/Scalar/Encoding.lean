import TensorEquations.Scalar.Text
import TensorEquations.Text.Quoted

/-!
# The constructor text of a scalar

A scalar written as nested constructor calls, such as `Add(Mul(Integer(2), Symbol('x')), Integer(1))`.

* `Number.arguments` — a coefficient as the first arguments of a product; a negative one is `-1`
  times a positive one.
* `Term.constructor`, `sumConstructor` — terms and sums over bases that have become text.
* `Scalar.constructor` — the constructor text of a scalar.
-/

namespace TensorEquations

/-- A call of a constructor. -/
def callText (name : String) (arguments : List String) : String :=
  name ++ "(" ++ ", ".intercalate arguments ++ ")"

/-- The arguments that a coefficient puts in front of the powers of a product. -/
def Number.arguments (c : Number) : List String :=
  if c = 1 then [] else
  if c = -1 then [c.constructor] else
  if c.isNegative then [(-1 : Number).constructor, (-c).constructor] else [c.constructor]

/-- A power; the exponent one is not written. -/
def Factor.constructor (f : Factor String) : String :=
  if f.exponent = 1 then f.base
  else callText "Pow" [f.base, s!"Integer({f.exponent})"]

/-- A product with its coefficient. -/
def Term.constructor (term : Term String) : String :=
  let t := term.spelled
  match t.factors with
  | [] => t.coefficient.constructor
  | fs =>
    match t.coefficient.arguments ++ fs.map Factor.constructor with
    | [one] => one
    | several => callText "Mul" several

/-- A sum in written order. -/
def sumConstructor (ts : List (Term String)) : String :=
  match displayed ts with
  | [] => (0 : Number).constructor
  | [t] => t.constructor
  | several => callText "Add" (several.map Term.constructor)

/-- The constructor text of a symbol. -/
def symbolConstructor (name : String) : String := callText "Symbol" [Text.quote name]

/-- The constructor text of a scalar. -/
def Scalar.constructor (s : Scalar) : String :=
  s.fold symbolConstructor sumConstructor

end TensorEquations
