import TensorEquations.Scalar.Decoding
import TensorEquations.Scalar.Encoding
import TensorEquations.Substitution.Basic

/-!
# The binary form of a substitution

A count of pairs, and for each pair the two scalars; a scalar is the length and the bytes of its
constructor text in UTF-8. Counts and lengths are eight bytes, the lowest first.

* `Substitution.encode` — the binary form.
* `Binary.Outcome` — the outcome of a read: a value, no value, a length beyond what can be asked for, or
  a formula whose evaluation fails.
* `Substitution.decode` — reads a substitution at the start of a list of bytes and gives what is
  left unread.
-/

namespace TensorEquations

/-- Bytes. -/
abbrev Bytes := List UInt8

namespace Binary

/-- The `width` lowest bytes of a number, the lowest first. -/
def littleEndian : Nat → Nat → Bytes
  | 0, _ => []
  | width + 1, n => UInt8.ofNat (n % 256) :: littleEndian width (n / 256)

/-- The number that bytes write, the lowest first. -/
def ofLittleEndian : Bytes → Nat
  | [] => 0
  | b :: bs => b.toNat + 256 * ofLittleEndian bs

/-- A count or a length. -/
def encodeSize (n : Nat) : Bytes := littleEndian 8 n

/-- The bytes of a text in UTF-8. -/
def textBytes (text : String) : Bytes := text.toUTF8.toList

/-- The text that bytes in UTF-8 write, if any. -/
def bytesText? (bytes : Bytes) : Option String := String.fromUTF8? ⟨bytes.toArray⟩

/-- The length and the constructor text of a scalar. -/
def encodeScalar (s : Scalar) : Bytes :=
  let payload := textBytes s.constructor
  encodeSize payload.length ++ payload

/-- The outcome of a read. -/
inductive Outcome (α : Type) where
  | value (x : α)
  | unreadable
  | tooLong
  | faulty (fault : Formula.Fault)
  deriving Repr

/-- The outcome of a read and the bytes behind it. -/
abbrev Result (α : Type) := Outcome α × Bytes

/-- One read after another. -/
def Result.andThen {α β : Type} (r : Result α) (next : α → Bytes → Result β) : Result β :=
  match r with
  | (.value x, rest) => next x rest
  | (.unreadable, rest) => (.unreadable, rest)
  | (.tooLong, rest) => (.tooLong, rest)
  | (.faulty fault, rest) => (.faulty fault, rest)

/-- The outcome of reading a scalar from its text. -/
def outcomeOf : Except Formula.Fault Scalar → Outcome Scalar
  | .ok s => .value s
  | .error .unreadable => .unreadable
  | .error fault => .faulty fault

/-- Reads `n` bytes; with fewer left, nothing is left after the attempt. -/
def take (n : Nat) (bytes : Bytes) : Result Bytes :=
  if n ≤ bytes.length then (.value (bytes.take n), bytes.drop n) else (.unreadable, [])

/-- Reads a count or a length. -/
def decodeSize (bytes : Bytes) : Result Nat :=
  (take 8 bytes).andThen fun raw rest => (.value (ofLittleEndian raw), rest)

/-- Reads a scalar; a length of `2 ^ 63` or more cannot be asked for. -/
def decodeScalar (bytes : Bytes) : Result Scalar :=
  (decodeSize bytes).andThen fun length rest =>
    if Nat.pow 2 63 ≤ length then (.tooLong, rest) else
    (take length rest).andThen fun payload rest =>
      match bytesText? payload with
      | some text => (outcomeOf (Scalar.ofText text), rest)
      | none => (.unreadable, rest)

/-- Reads `count` pairs of scalars. -/
def decodePairs : Nat → Bytes → Result (List (Scalar × Scalar))
  | 0, bytes => (.value [], bytes)
  | count + 1, bytes =>
    (decodeScalar bytes).andThen fun left rest =>
      (decodeScalar rest).andThen fun right rest =>
        (decodePairs count rest).andThen fun pairs rest => (.value ((left, right) :: pairs), rest)

end Binary

namespace Substitution

/-- The binary form. -/
def encode (s : Substitution) : Bytes :=
  Binary.encodeSize s.pairs.length ++
    s.pairs.flatMap fun pair => Binary.encodeScalar pair.1 ++ Binary.encodeScalar pair.2

/-- Reads a substitution at the start of some bytes. -/
def decode (bytes : Bytes) : Binary.Result Substitution :=
  (Binary.decodeSize bytes).andThen fun count rest =>
    (Binary.decodePairs count rest).andThen fun pairs rest => (.value { pairs := pairs }, rest)

end Substitution

end TensorEquations
