import TensorEquations.Scalar.Formula.Syntax
import TensorEquations.Scalar.Radical
import TensorEquations.Text.Integer

/-!
# Values of formulas

* `Value` — what a formula stands for: a scalar, a text, a truth value, a list of items or nothing.
* `Fault` — why a formula stands for nothing of these.
* `applyBinary`, `applyConstructor` — operations and constructor calls.
* `Tree.value` — the value of a tree; operands and arguments are evaluated from left to right.

Operations are for scalars alone. A function that is not known here gives a symbol with the text of
the call as its name, and so do comparisons that cannot be decided.
-/

namespace TensorEquations.Formula

/-- What a formula stands for. -/
inductive Value where
  | scalar (s : Scalar)
  | text (s : String)
  | truth (b : Bool)
  | nothing
  | items (bracket : Bracket) (elements : List Value)

/-- Why a formula has no value. -/
inductive Fault where
  | unreadable
  | divisionByZero
  | noMember
  deriving DecidableEq, Repr

/-! ## Texts -/

/-- The text of a scalar as a part of a larger text. -/
def partText (s : Scalar) : String :=
  match s.number? with
  | some c => c.text true
  | none => s.text

/-- The text of items in brackets; a single one in round brackets keeps its comma. -/
def itemsText (bracket : Bracket) (texts : List String) : String :=
  match bracket, texts with
  | .square, texts => "[" ++ ", ".intercalate texts ++ "]"
  | .round, [text] => "(" ++ text ++ ",)"
  | .round, texts => "(" ++ ", ".intercalate texts ++ ")"

mutual

/-- The text of a value as a part of a larger text. -/
def Value.partText : Value → String
  | .scalar s => Formula.partText s
  | .text s => s
  | .truth b => truthText b
  | .nothing => "None"
  | .items bracket elements => itemsText bracket (partTexts elements)

/-- The texts of several values. -/
def partTexts : List Value → List String
  | [] => []
  | v :: vs => v.partText :: partTexts vs

end

/-- The scalar that a value is. -/
def Value.asScalar : Value → Except Fault Scalar
  | .scalar s => .ok s
  | _ => .error .unreadable

/-- A call that is not evaluated, as a symbol. -/
def openCall (function : String) (texts : List String) : Scalar :=
  .symbol (function ++ "(" ++ ", ".intercalate texts ++ ")")

/-! ## Operations -/

/-- The integer part of a quotient of numbers. -/
def integerQuotient (a b : Number) : Except Fault Number :=
  if !(a.isExact || a.isDecimal) || b.isUndefined then .ok .undefined
  else if b.isInfinite then .error .unreadable
  else if b.isZero then .error .divisionByZero
  else .ok (.exact (a.value / b.value).floor)

/-- What an integer quotient of numbers leaves; the zero that decimals leave is a decimal. -/
def remainder (a b : Number) : Except Fault Number :=
  if !(a.isExact || a.isDecimal) || b.isUndefined then .ok .undefined
  else if b.isInfinite then .error .unreadable
  else if b.isZero then .error .divisionByZero
  else
    let r := a.value - b.value * (a.value / b.value).floor
    .ok (if a.isExact && b.isExact then .exact r else .decimal (roundBinary r))

/-- A comparison of two finite numbers. -/
def compareNumbers (op : Operator) (p q : Rat) : Bool :=
  match op with
  | .less => decide (p < q)
  | .lessEqual => decide (p ≤ q)
  | .greater => decide (q < p)
  | _ => decide (q ≤ p)

/-- The text of a comparison sign. -/
def Operator.comparisonText : Operator → String
  | .less => " < "
  | .lessEqual => " <= "
  | .greater => " > "
  | _ => " >= "

/-- A comparison by size. -/
def compareScalars (op : Operator) (a b : Scalar) : Except Fault Value :=
  match a.number?, b.number? with
  | some p, some q =>
    if p.isInfinite || p.isUndefined || q.isInfinite || q.isUndefined then .error .unreadable
    else .ok (.truth (compareNumbers op p.value q.value))
  | _, _ =>
    .ok (.scalar (.symbol (partText a ++ op.comparisonText ++ partText b)))

/-- The value of an operation. -/
def applyBinary (op : Operator) (a b : Scalar) : Except Fault Value :=
  match op with
  | .plus => .ok (.scalar (a + b))
  | .minus => .ok (.scalar (a - b))
  | .times => .ok (.scalar (a * b))
  | .divide => .ok (.scalar (a / b))
  | .power => .ok (.scalar (a.power b))
  | .equal => .ok (.truth (decide (a = b)))
  | .unequal => .ok (.truth (decide (a ≠ b)))
  | .quotient =>
    match a.number?, b.number? with
    | some p, some q => (integerQuotient p q).map fun c => .scalar (.number c)
    | _, _ =>
      let q := a / b
      .ok <| .scalar <| match q.number? with
        | some c => .rational c.value.floor
        | none => openCall "floor" [q.text]
  | .remainder =>
    match a.number?, b.number? with
    | some p, some q => (remainder p q).map fun c => .scalar (.number c)
    | _, _ => .ok (.scalar (openCall "Mod" [partText a, partText b]))
  | op => compareScalars op a b

/-- The sign applied to a value. -/
def applySign (negative : Bool) : Value → Except Fault Value
  | .scalar s => .ok (.scalar (if negative then -s else s))
  | _ => .error .unreadable

/-! ## Numbers from texts -/

/-- The number `m · 10 ^ e` that digits with a point and an exponent write, as `m` and `e`. -/
def readScaled (cs : List Char) : Option (Nat × Int) :=
  let (whole, rest) := spanNumeral cs
  let (fraction, rest) := match rest with
    | '.' :: rest => spanNumeral rest
    | rest => ([], rest)
  let m := Text.digitsValue (whole ++ fraction)
  if whole.isEmpty && fraction.isEmpty then none else
  match rest with
  | [] => some (m, -fraction.length)
  | rest =>
    match spanExponent rest with
    | some (e, []) => some (m, e - fraction.length)
    | _ => none

/-- A text with a sign in front, read by a reader for texts without. -/
def readSigned (read : List Char → Option Rat) (cs : List Char) : Option Rat :=
  match Text.takeSign (Text.trimChars cs) with
  | (negative, digits) => (read digits).map fun q => if negative then -q else q

/-- The decimal that a text writes, rounded. -/
def decimalOfText? : List Char → Option Rat :=
  readSigned fun cs => (readScaled cs).bind fun (m, e) => (decimalOf? m e).map Number.value

/-- The integer or decimal that a text writes, without rounding. -/
def exactOfText? : List Char → Option Rat :=
  readSigned fun cs => (readScaled cs).bind fun (m, e) =>
    if exponentLimit < e.natAbs then none else some ((m : Rat) * (10 : Rat) ^ e)

/-- What stands in front of the last quotient bar, if there is one, and behind it. -/
def splitQuotient (cs : List Char) : Option (List Char × List Char) :=
  if cs.contains '/' then
    let reversed := cs.reverse
    some (((reversed.dropWhile (· ≠ '/')).drop 1).reverse, (reversed.takeWhile (· ≠ '/')).reverse)
  else none

/-- The rational that a text writes as an integer, a decimal or a quotient of two of them. -/
def rationalOfText (text : String) : Except Fault Rat :=
  let cs := text.toList.filter (· ≠ ' ')
  let part (cs : List Char) : Except Fault Rat := match exactOfText? cs with
    | some q => .ok q
    | none => .error .unreadable
  match splitQuotient cs with
  | none => part cs
  | some (above, below) => do
    let p ← part above
    let q ← part below
    if q = 0 then .error .divisionByZero else return p / q

/-! ## Constructors -/

/-- A part of a rational number: an exact number, the exact value of a decimal, or a text. -/
def rationalPart : Value → Except Fault Rat
  | .scalar s =>
    match s.number? with
    | some (.exact q) => .ok q
    | some (.decimal q) => .ok q
    | _ => .error .unreadable
  | .text text => rationalOfText text
  | _ => .error .unreadable

/-- An integer from a number, cut toward zero, or from a text. -/
def integerPart : Value → Except Fault Int
  | .scalar s =>
    match s.number? with
    | some (.exact q) => .ok (q.num.tdiv q.den)
    | some (.decimal q) => .ok (q.num.tdiv q.den)
    | _ => .error .unreadable
  | .text text =>
    match Text.readInteger (String.ofList (text.toList.filter (· ≠ ' '))) with
    | .ok n => .ok n
    | .error _ => .error .unreadable
  | _ => .error .unreadable

/-- A decimal from a number or a text; zero stays a decimal. -/
def decimalPart : Value → Except Fault Number
  | .scalar s =>
    match s.number? with
    | some (.exact q) => .ok (.decimal (roundBinary q))
    | some (.decimal q) => .ok (.decimal q)
    | some .undefined => .ok .undefined
    | _ => .error .unreadable
  | .text text =>
    let cs := text.toList.filter (· ≠ ' ')
    if (cs.map Char.toLower) = "nan".toList then .ok .undefined else
    match decimalOfText? cs with
    | some q => .ok (.decimal q)
    | none => .error .unreadable
  | _ => .error .unreadable

/-- A quotient of two rationals as a number. -/
def quotientNumber (p q : Rat) : Number :=
  if q = 0 then (if p = 0 then .undefined else .infinite 1) else .exact (p / q)

/-- The largest number whose factorial is computed. -/
def factorialLimit : Nat := 2000

/-- The factorial of a scalar, in steps of `marks`. -/
def factorialOf (marks : Nat) (s : Scalar) : Scalar :=
  let open_ := openCall (if marks = 1 then "factorial" else "factorial2") [partText s]
  match s.number? with
  | some (.exact q) =>
    if q.den ≠ 1 then open_
    else if q < 0 then (if marks = 1 then .number (.infinite 1) else open_)
    else if factorialLimit < q.num.natAbs then open_
    else
      let n := q.num.natAbs
      let steps := (List.range n).map fun i => if i % marks = 0 then n - i else 1
      .rational (steps.foldl (· * ·) 1 : Nat)
  | some (.infinite m) => .number (.infinite m)
  | some .undefined => .undefined
  | _ => open_

/-- The magnitude of a scalar. -/
def magnitudeOf (s : Scalar) : Scalar :=
  match s.number? with
  | some c => .number c.magnitude
  | none => openCall "Abs" [s.text]

/-- The value of a constructor call. -/
def applyConstructor (function : String) (arguments : List Value) : Except Fault Scalar :=
  match function, arguments with
  | "Symbol", [.text s] => .ok (.symbol s)
  | "Symbol", _ => .error .unreadable
  | "Integer", [v] => do return .rational (← integerPart v)
  | "Integer", _ => .error .unreadable
  | "Rational", [v] => do return .rational (← rationalPart v)
  | "Rational", [v, w] => do
    let p ← rationalPart v
    let q ← rationalPart w
    return .number (quotientNumber p q)
  | "Rational", _ => .error .unreadable
  | "Float", v :: _ => do return .number (← decimalPart v)
  | "Float", _ => .error .unreadable
  | "Pow", [v, w] => do return (← v.asScalar).power (← w.asScalar)
  | "Pow", _ => .error .unreadable
  | "Add", arguments => do return Scalar.sum (← arguments.mapM Value.asScalar)
  | "Mul", arguments => do return Scalar.product (← arguments.mapM Value.asScalar)
  | "sqrt", [v] => do return (← v.asScalar).power (.rational (1 / 2))
  | "factorial", [v] => do return factorialOf 1 (← v.asScalar)
  | "factorial2", [v] => do return factorialOf 2 (← v.asScalar)
  | "Abs", [v] => do return magnitudeOf (← v.asScalar)
  | "abs", [v] => do return magnitudeOf (← v.asScalar)
  | function, arguments => .ok (openCall function (partTexts arguments))

/-! ## Trees -/

/-- What a name stands for. -/
def nameValue : String → Value
  | "zoo" => .scalar (.number (.infinite 1))
  | "nan" => .scalar .undefined
  | "True" => .truth true
  | "False" => .truth false
  | "None" => .nothing
  | text => .scalar (.symbol text)

/-- Whether no argument follows a keyword argument that is none itself. -/
def keywordsLast : List Tree → Bool
  | .keyword _ _ :: .keyword k e :: rest => keywordsLast (.keyword k e :: rest)
  | .keyword _ _ :: _ :: _ => false
  | _ :: rest => keywordsLast rest
  | [] => true

mutual

/-- What a tree stands for. -/
def Tree.value : Tree → Except Fault Value
  | .name text => .ok (nameValue text)
  | .number c => .ok (.scalar (.number c))
  | .quoted text => .ok (.text text)
  | .keep e => do applySign false (← e.value)
  | .negate e => do applySign true (← e.value)
  | .binary op l r => do
    let v ← l.value
    let w ← r.value
    applyBinary op (← v.asScalar) (← w.asScalar)
  | .factorial marks e => do
    let v ← e.value
    return .scalar (factorialOf marks (← v.asScalar))
  | .call function arguments =>
    if !keywordsLast arguments then .error .unreadable else do
      return .scalar (← applyConstructor function (← positional arguments))
  | .keyword _ e => e.value
  | .member e _ => do
    let _ ← e.value
    .error .noMember
  | .items bracket elements => do return .items bracket (← positional elements)

/-- What the trees of a list stand for, keyword arguments left out. -/
def positional : List Tree → Except Fault (List Value)
  | [] => .ok []
  | .keyword _ e :: es => do
    let _ ← e.value
    positional es
  | e :: es => do
    let v ← e.value
    return v :: (← positional es)

end

end TensorEquations.Formula
