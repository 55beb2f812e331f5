import TensorEquations.Scalar.Rounding

/-!
# Numbers

Coefficients and constants of scalar expressions.

* `Number` — an exact rational, a decimal (a rational kept to 53 significant binary digits), a
  multiple of the infinite value that is the reciprocal of zero, or an undefined value.
* `Number.add`, `Number.mul`, `Number.div`, `Number.pow` — arithmetic.
* `Number.scale` — a rational multiple that does not absorb the factor of an infinite value.

Arithmetic on exact numbers is the arithmetic of the rationals. One decimal operand makes the result
a decimal, rounded once, or the exact zero; the decimal zero is only ever written down. The infinite
value absorbs what is added to it and what it is multiplied with, but its product with zero and the
sum of two of it are undefined.
-/

namespace TensorEquations

/-- A number of a scalar expression. -/
inductive Number where
  | exact (value : Rat)
  | decimal (value : Rat)
  | infinite (multiple : Rat)
  | undefined
  deriving DecidableEq, Repr

namespace Number

/-- The rational that a finite number stands for. -/
def value : Number → Rat
  | exact q => q
  | decimal q => q
  | infinite _ => 0
  | undefined => 0

/-- A decimal result: rounded, and exact when it is zero. -/
def ofRounded (q : Rat) : Number :=
  let r := roundBinary q
  if r = 0 then exact 0 else decimal r

instance (n : Nat) : OfNat Number n := ⟨exact (n : Rat)⟩

instance : IntCast Number := ⟨fun n => exact (n : Rat)⟩

/-- Zero of either kind. -/
def isZero : Number → Bool
  | exact q => q == 0
  | decimal q => q == 0
  | infinite _ => false
  | undefined => false

def isNegative : Number → Bool
  | infinite m => decide (m < 0)
  | a => decide (a.value < 0)

def isPositive (a : Number) : Bool := decide (0 < a.value)

def isExact : Number → Bool
  | exact _ => true
  | _ => false

def isDecimal : Number → Bool
  | decimal _ => true
  | _ => false

def isInfinite : Number → Bool
  | infinite _ => true
  | _ => false

def isUndefined : Number → Bool
  | undefined => true
  | _ => false

/-- The rational that an exact number is. -/
def rational? : Number → Option Rat
  | exact q => some q
  | _ => none

/-- The rational that a finite number stands for when it takes part in decimal arithmetic. -/
def rounded : Number → Rat
  | exact q => roundBinary q
  | a => a.value

def add : Number → Number → Number
  | exact a, exact b => exact (a + b)
  | undefined, _ => undefined
  | _, undefined => undefined
  | infinite _, infinite _ => undefined
  | infinite _, _ => infinite 1
  | _, infinite _ => infinite 1
  | a, b => ofRounded (a.rounded + b.rounded)

def mul : Number → Number → Number
  | exact a, exact b => exact (a * b)
  | undefined, _ => undefined
  | _, undefined => undefined
  | infinite _, infinite _ => infinite 1
  | infinite _, b => if b.isZero then undefined else infinite 1
  | a, infinite _ => if a.isZero then undefined else infinite 1
  | a, b => ofRounded (a.rounded * b.rounded)

/-- A rational multiple; of an infinite value the multiple is kept, apart from its sign. -/
def scale (c : Rat) : Number → Number
  | exact a => exact (c * a)
  | decimal a => if c = -1 then decimal (-a) else ofRounded (roundBinary c * a)
  | infinite m => if c = -1 then infinite 1 else infinite (c * m)
  | undefined => undefined

def neg (a : Number) : Number := a.scale (-1)

/-- An integer power. A decimal is raised exactly and rounded once; a negative power is the
reciprocal of the positive one, which for this is kept to five digits more. -/
def pow (a : Number) (n : Int) : Number :=
  if n = 0 then exact 1 else
  match a with
  | exact q => if q = 0 ∧ n < 0 then infinite 1 else exact (q ^ n)
  | decimal q =>
    if q = 0 then (if n < 0 then infinite 1 else decimal 0)
    else if 0 < n then decimal (roundedPower 53 q n.toNat)
    else if n = -1 then decimal (roundBinary (1 / q))
    else decimal (roundBinary (1 / roundedPower 58 q (-n).toNat))
  | infinite _ => if n < 0 then exact 0 else infinite 1
  | undefined => undefined

/-- The reciprocal; that of zero is infinite. -/
def inv (a : Number) : Number := a.pow (-1)

/-- A quotient. A decimal is divided with one rounding; anything else is multiplied by the
reciprocal. -/
def div (a b : Number) : Number :=
  match a, b with
  | exact p, exact q => if q = 0 then mul a b.inv else exact (p / q)
  | decimal p, exact q => if q = 0 then mul a b.inv else ofRounded (p / roundBinary q)
  | decimal p, decimal q => if q = 0 then mul a b.inv else ofRounded (p / q)
  | a, b => mul a b.inv

instance : Add Number := ⟨add⟩
instance : Mul Number := ⟨mul⟩
instance : Neg Number := ⟨neg⟩
instance : Div Number := ⟨div⟩

end Number

end TensorEquations
