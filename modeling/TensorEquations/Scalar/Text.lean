import TensorEquations.Scalar.Decimal
import TensorEquations.Scalar.Order
import TensorEquations.Text.Digit

/-!
# The text of a scalar

Sums with `+` and `-`, products with `*`, one quotient bar for the factors with negative exponents
and the denominator of the number, sums as bases in parentheses.

* `powerText` — a power with a positive exponent.
* `Term.text`, `sumText` — terms and sums over bases that have become text.
* `Scalar.text` — the text of a scalar.
* `Scalar.message` — the text of a scalar in a message or a listing.
* `Scalar.isWritable` — whether a scalar has a text at all: its integers have to be short enough.
-/

namespace TensorEquations

/-- A term with the infinite value written as its first factor. -/
def Term.spelled (t : Term String) : Term String :=
  match t.coefficient with
  | .infinite m => ⟨.exact m, ⟨Number.infiniteText, 1⟩ :: t.factors⟩
  | _ => t

/-- A base with a positive exponent; the exponent one is not written. -/
def powerText (base : String) (exponent : Nat) : String :=
  if exponent = 1 then base else s!"{base}**{exponent}"

/-- The factors above the quotient bar. -/
def numeratorTexts (c : Number) (fs : List (Factor String)) : List String :=
  let front := match c with
    | .exact q => if q.num.natAbs = 1 then [] else [toString q.num.natAbs]
    | c => [c.text true]
  front ++ (fs.filter (0 < ·.exponent)).map fun f => powerText f.base f.exponent.toNat

/-- The factors below the quotient bar. -/
def denominatorTexts (c : Number) (fs : List (Factor String)) : List String :=
  let front := match c with
    | .exact q => if q.den = 1 then [] else [toString q.den]
    | _ => []
  front ++ (fs.filter (·.exponent < 0)).map fun f => powerText f.base (-f.exponent).toNat

/-- A quotient of two lists of factors. -/
def quotientText (above below : List String) : String :=
  let top := if above.isEmpty then "1" else "*".intercalate above
  match below with
  | [] => top
  | [d] => s!"{top}/{d}"
  | ds => top ++ "/(" ++ "*".intercalate ds ++ ")"

/-- The text of a term; a single power below `-1` is written with its exponent. `short` concerns a
decimal that is the whole term. -/
def Term.text (short : Bool) (term : Term String) : String :=
  let t := term.spelled
  match t.factors with
  | [] => t.coefficient.text short
  | fs =>
    if t.coefficient.isNegative then
      let c := -t.coefficient
      "-" ++ quotientText (numeratorTexts c fs) (denominatorTexts c fs)
    else
      match t.coefficient, fs with
      | .exact q, [f] =>
        if q = 1 ∧ f.exponent < -1 then s!"{f.base}**({f.exponent})"
        else quotientText (numeratorTexts (.exact q) fs) (denominatorTexts (.exact q) fs)
      | c, fs => quotientText (numeratorTexts c fs) (denominatorTexts c fs)

/-- Later terms of a sum with their signs as operators. -/
def laterText (t : Term String) : String :=
  let text := t.text true
  match text.toList with
  | '-' :: rest => " - " ++ String.ofList rest
  | _ => " + " ++ text

/-- The text of a sum in written order. -/
def sumText (ts : List (Term String)) : String :=
  match displayed ts with
  | [] => "0"
  | [t] => t.text false
  | t :: rest => t.text true ++ String.join (rest.map laterText)

/-- The text of a scalar; a sum as a base stands in parentheses. -/
def Scalar.text (s : Scalar) : String :=
  sumText (Base.foldTerms id (fun ts => "(" ++ sumText ts ++ ")") s.terms)

/-- The text of a scalar in a message or a listing, where a number alone has a form of its own. -/
def Scalar.message (s : Scalar) : String :=
  match s.number? with
  | some c => c.message
  | none => s.text

/-- The text of a truth value. -/
def truthText (b : Bool) : String := if b then "True" else "False"

/-! ## Length -/

/-- Whether the integers in the text of a number are short enough. -/
def Number.isWritable : Number → Bool
  | exact q => Text.isWritable q.num.natAbs && Text.isWritable q.den
  | infinite m => Text.isWritable m.num.natAbs && Text.isWritable m.den
  | _ => true

/-- Whether the integers in the text of a term are short enough, given that of its bases. -/
def Term.isWritable (t : Term Bool) : Bool :=
  t.coefficient.isWritable && t.factors.all fun f => f.base && Text.isWritable f.exponent.natAbs

/-- Whether the integers in the text of a scalar are short enough. -/
def Scalar.isWritable : Scalar → Bool := fold (fun _ => true) (fun ts => ts.all Term.isWritable)

end TensorEquations
