import TensorEquations.Text.Quoted

/-!
# Bytes as text

* `hexText` — two hexadecimal digits for each byte.
* `bytesOfHex` — the bytes that such a text writes.
-/

namespace TensorEquations.Text

/-- Two digits for each byte. -/
def hexText (bytes : List UInt8) : String :=
  String.ofList (bytes.flatMap fun b => hexDigits 2 b.toNat)

/-- The byte of each pair of digits; a digit at the end without a partner is left out. -/
def bytesOfDigits : List Char → List UInt8
  | a :: b :: cs => UInt8.ofNat ((hexNumber? [a, b]).getD 0) :: bytesOfDigits cs
  | _ => []

/-- The bytes that a text of digits writes. -/
def bytesOfHex (text : String) : List UInt8 := bytesOfDigits text.toList

end TensorEquations.Text
