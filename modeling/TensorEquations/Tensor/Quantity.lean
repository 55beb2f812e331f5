import TensorEquations.Tensor.Arithmetic
import TensorEquations.Tensor.Text

/-!
# Quantities

* `Quantity` — a scalar or a tensor.
* `Quantity.map` — a function applied to the scalar or to every component.
* `Quantity.add`, `Quantity.sub`, `Quantity.mul` — arithmetic with scalars on either side; a scalar
  is added to a tensor as one without axes, and multiplies every component.
-/

namespace TensorEquations

/-- What a substitution changes. -/
inductive Quantity where
  | scalar (s : Scalar)
  | tensor (t : Tensor)

namespace Quantity

def map (f : Scalar → Scalar) : Quantity → Quantity
  | scalar s => scalar (f s)
  | tensor t => tensor (t.map f)

/-- A scalar counts as a tensor without axes. -/
def toTensor : Quantity → Tensor
  | scalar s => .scalar s
  | tensor t => t

def expand : Quantity → Quantity := map Scalar.expand

def neg : Quantity → Quantity := map (- ·)

def add (a b : Quantity) : Except ShapeError Quantity :=
  match a, b with
  | scalar s, scalar t => .ok (scalar (s + t))
  | tensor t, q => (t.add q.toTensor).map tensor
  | scalar s, tensor t => (t.add (.scalar s)).map tensor

/-- A difference; a tensor subtracted from a scalar is negated and then added to. -/
def sub (a b : Quantity) : Except ShapeError Quantity :=
  match a, b with
  | scalar s, scalar t => .ok (scalar (s - t))
  | tensor t, q => (t.sub q.toTensor).map tensor
  | scalar s, tensor t => (t.neg.add (.scalar s)).map tensor

def mul (a b : Quantity) : Except TensorError Quantity :=
  match a, b with
  | scalar s, scalar t => .ok (scalar (s * t))
  | tensor t, scalar s => .ok (tensor (t.scale s))
  | scalar s, tensor t => .ok (tensor (t.scale s))
  | tensor s, tensor t => (s.product t).map tensor

end Quantity

end TensorEquations
