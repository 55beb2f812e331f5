import TensorEquations.Proofs.Scalar.Readability
import TensorEquations.Proofs.Substitution.Decoding

/-!
# Truncated bytes

The bytes of a substitution that end too early are no substitution, wherever the cut is: in the number of pairs, in
a length, in the text of a scalar or between two of these.

* `Binary.frames_cut` — **where a cut is**: some scalars are still read, and what follows is refused.
* `Binary.frames_prefixFree` — equally many texts with their lengths in front are not the start of others.
* `Substitution.truncation_noticed` — **no substitution is read from truncated bytes, and the bytes of no
  substitution are truncated bytes of another one.**
-/

namespace TensorEquations

namespace Binary

theorem length_encodeSize (n : Nat) : (encodeSize n).length = 8 := length_littleEndian 8 n

theorem encodeSize_inj {m n : Nat} (hm : m < 2 ^ 64) (hn : n < 2 ^ 64) (h : encodeSize m = encodeSize n) :
    m = n := by
  have hsize := decodeSize_encodeSize hm []
  rw [h, decodeSize_encodeSize hn] at hsize
  exact (Outcome.value.inj (Prod.mk.inj hsize).1).symm

/-- What is cut from two lists in a row leaves a cut first list, or the first list and a cut second one. -/
theorem prefix_append_cases {α : Type} {p xs ys : List α} (h : p <+: xs ++ ys) :
    (p <+: xs ∧ p ≠ xs) ∨ ∃ q, p = xs ++ q ∧ q <+: ys := by
  rcases List.prefix_or_prefix_of_prefix h (List.prefix_append xs ys) with hshort | ⟨q, rfl⟩
  · by_cases heq : p = xs
    · exact .inr ⟨[], by rw [heq, List.append_nil], List.nil_prefix⟩
    · exact .inl ⟨hshort, heq⟩
  · exact .inr ⟨q, rfl, (List.prefix_append_right_inj xs).mp h⟩

theorem length_lt_of_cut {α : Type} {p xs : List α} (h : p <+: xs) (hne : p ≠ xs) : p.length < xs.length :=
  Nat.lt_of_le_of_ne h.length_le fun heq => hne (h.eq_of_length heq)

/-- A cut text, with its length in front, is refused. -/
theorem framed_cut {payload p : Bytes} (hshort : payload.length < 2 ^ 63) (h : p <+: framed payload)
    (hne : p ≠ framed payload) : Refused .unreadable p := by
  rcases prefix_append_cases h with ⟨hsize, hcut⟩ | ⟨q, rfl, hq⟩
  · have hlength := length_lt_of_cut hsize hcut
    rw [length_encodeSize] at hlength
    exact .cutLength hlength
  · have hcut : q ≠ payload := fun heq => hne (congrArg (encodeSize payload.length ++ ·) heq)
    exact .cutText hshort (length_lt_of_cut hq hcut)

/-- **Where a cut is.** Of the bytes of some scalars, with some missing at the end, a number of scalars are still
read, but not all of them, and what follows is refused as unreadable. -/
theorem frames_cut : ∀ {ss : List Scalar} {p : Bytes},
    (∀ s ∈ ss, (textBytes s.constructor).length < 2 ^ 63) → p <+: ss.flatMap encodeScalar →
    p ≠ ss.flatMap encodeScalar →
    ∃ read rest, StartsWith read p rest ∧ read.length < ss.length ∧ Refused .unreadable rest
  | [], p, _, h, hne => absurd (List.prefix_nil.mp h) hne
  | s :: ss, p, hshort, h, hne => by
    obtain ⟨hs, hss⟩ := List.forall_mem_cons.mp hshort
    rcases prefix_append_cases h with ⟨hfirst, hcut⟩ | ⟨q, rfl, hq⟩
    · exact ⟨[], p, .nil p, Nat.succ_pos _, framed_cut hs hfirst hcut⟩
    have hcut : q ≠ ss.flatMap encodeScalar := fun heq => hne (congrArg (encodeScalar s ++ ·) heq)
    -- The first scalar is there; what its text stands for need not be the scalar again.
    cases htext : Scalar.ofText s.constructor with
    | ok s' =>
        obtain ⟨read, rest, hread, hlength, hrefused⟩ := frames_cut hss hq hcut
        exact ⟨s' :: read, rest, .cons hs htext hread, Nat.succ_lt_succ hlength, hrefused⟩
    | error fault =>
        obtain rfl := s.ofText_constructor_fault fault htext
        exact ⟨[], _, .nil _, Nat.succ_pos _, .noScalar hs htext⟩

/-- Sizes that start the same bytes are equal. -/
theorem encodeSize_start {m n : Nat} (hm : m < 2 ^ 64) (hn : n < 2 ^ 64) {xs ys : Bytes}
    (h : encodeSize m ++ xs <+: encodeSize n ++ ys) : m = n ∧ xs <+: ys := by
  have hbegins : encodeSize m <+: encodeSize n :=
    List.prefix_of_prefix_length_le ((List.prefix_append _ xs).trans h) (List.prefix_append _ ys)
      (by simp only [length_encodeSize, Nat.le_refl])
  obtain rfl := encodeSize_inj hm hn (hbegins.eq_of_length (by simp only [length_encodeSize]))
  exact ⟨rfl, (List.prefix_append_right_inj _).mp h⟩

/-- **Equally many texts are not the start of others.** -/
theorem frames_prefixFree : ∀ {xs ys : List Bytes}, xs.length = ys.length → (∀ x ∈ xs, x.length < 2 ^ 64) →
    (∀ y ∈ ys, y.length < 2 ^ 64) → xs.flatMap framed <+: ys.flatMap framed → xs = ys
  | [], ys, hlength, _, _, _ => (List.length_eq_zero_iff.mp hlength.symm).symm
  | x :: xs, [], hlength, _, _, _ => absurd hlength (Nat.succ_ne_zero _)
  | x :: xs, y :: ys, hlength, hxs, hys, h => by
    obtain ⟨hx, hxs⟩ := List.forall_mem_cons.mp hxs
    obtain ⟨hy, hys⟩ := List.forall_mem_cons.mp hys
    simp only [List.flatMap_cons, framed, List.append_assoc] at h
    obtain ⟨hxy, h⟩ := encodeSize_start hx hy h
    have hfirst : x = y := by
      have hbegins := List.prefix_of_prefix_length_le ((List.prefix_append _ _).trans h) (List.prefix_append _ _)
        (Nat.le_of_eq hxy)
      exact hbegins.eq_of_length hxy
    rw [hfirst, List.prefix_append_right_inj] at h
    rw [hfirst, frames_prefixFree (Nat.succ.inj hlength) hxs hys h]

end Binary

namespace Substitution

open Binary (encodeSize encodeScalar textBytes framed sides)

variable {s : Substitution}

theorem length_sides (pairs : List (Scalar × Scalar)) : (sides pairs).length = 2 * pairs.length := by
  induction pairs with
  | nil => rfl
  | cons pair pairs ih =>
      rw [sides, List.flatMap_cons, List.length_append, ← sides, ih, List.length_cons, List.length_cons,
        List.length_cons, List.length_nil]
      omega

/-- The bytes of a substitution are the number of its pairs and the bytes of their sides. -/
theorem encode_eq (s : Substitution) : s.encode = encodeSize s.pairs.length ++ (sides s.pairs).flatMap encodeScalar := by
  rw [encode, sides, List.flatMap_assoc]
  simp only [List.flatMap_cons, List.flatMap_nil, List.append_nil]

theorem length_encode (s : Substitution) :
    s.encode.length = 8 + ((sides s.pairs).map fun x => (encodeScalar x).length).sum := by
  rw [encode_eq, List.length_append, Binary.length_encodeSize, List.length_flatMap]

theorem length_encodeScalar (x : Scalar) : (encodeScalar x).length = 8 + (textBytes x.constructor).length := by
  rw [encodeScalar, List.length_append, Binary.length_encodeSize]

/-- The texts and the number of pairs of a substitution are no longer than its bytes. -/
theorem length_le_encode (s : Substitution) : s.pairs.length ≤ s.encode.length ∧
    ∀ x ∈ sides s.pairs, (textBytes x.constructor).length ≤ s.encode.length := by
  rw [length_encode]
  constructor
  · have hsum := List.length_le_sum_of_one_le ((sides s.pairs).map fun x => (encodeScalar x).length) (by
      simp only [List.forall_mem_map, length_encodeScalar]
      omega)
    rw [List.length_map, length_sides] at hsum
    omega
  · intro x hx
    have hmem := List.le_sum_of_mem (List.mem_map_of_mem (f := fun x => (encodeScalar x).length) hx)
    rw [length_encodeScalar] at hmem
    omega

/-- **Truncation is always noticed.** Bytes of a substitution from which some are missing at the end are no
substitution, and they are not the bytes of another substitution either. There is no condition on the scalars; a
string of bytes has fewer than `2 ^ 63` of them. -/
theorem truncation_noticed (h : s.encode.length < 2 ^ 63) :
    (∀ p, p <+: s.encode → p ≠ s.encode → (decode p).1 = .unreadable) ∧
    ∀ s' : Substitution, s'.encode <+: s.encode → s'.encode = s.encode := by
  obtain ⟨hcount, htexts⟩ := s.length_le_encode
  constructor
  · intro p hp hne
    rw [Binary.Outcome.eq_unreadable_iff, decode_refusal]
    rw [encode_eq] at hp hne
    rcases Binary.prefix_append_cases hp with ⟨hsize, hcut⟩ | ⟨body, rfl, hbody⟩
    · have hlength := Binary.length_lt_of_cut hsize hcut
      rw [Binary.length_encodeSize] at hlength
      exact .inl ⟨rfl, hlength⟩
    · have hcut : body ≠ (sides s.pairs).flatMap encodeScalar := fun heq =>
        hne (congrArg (encodeSize s.pairs.length ++ ·) heq)
      obtain ⟨read, rest, hread, hlength, hrefused⟩ := Binary.frames_cut
        (fun x hx => Nat.lt_of_le_of_lt (htexts x hx) h) hbody hcut
      rw [length_sides] at hlength
      exact .inr ⟨_, read, rest, ⟨by omega, body, rfl, hread⟩, hlength, hrefused⟩
  · intro s' hp
    obtain ⟨hcount', htexts'⟩ := s'.length_le_encode
    have hlength := hp.length_le
    have hframes : ∀ s : Substitution, (sides s.pairs).flatMap encodeScalar =
        ((sides s.pairs).map fun x => textBytes x.constructor).flatMap framed := fun s => by
      rw [List.flatMap_map]
      rfl
    rw [encode_eq, encode_eq, hframes, hframes] at hp
    obtain ⟨hpairs, hp⟩ := Binary.encodeSize_start (by omega) (by omega) hp
    have htexts_eq := Binary.frames_prefixFree (by simp only [List.length_map, length_sides, hpairs])
      (List.forall_mem_map.mpr fun x hx => by have := htexts' x hx; omega)
      (List.forall_mem_map.mpr fun x hx => by have := htexts x hx; omega) hp
    rw [encode_eq, encode_eq, hframes, hframes, hpairs, htexts_eq]

/-- A pair of a symbol and a sum, cut in the number of pairs, behind it, between the two sides, and in the second
one. -/
theorem truncation_noticed_sum :
    let s : Substitution := { pairs := [(.symbol "x'", .symbol "y" / 2 - 3)] }
    s.encode.length = 86 ∧ (decode (s.encode.take 4)).1 = .unreadable ∧ (decode (s.encode.take 8)).1 = .unreadable ∧
      (decode (s.encode.take 28)).1 = .unreadable ∧ (decode (s.encode.take 85)).1 = .unreadable := by
  intro s
  have hleft : (textBytes (Scalar.symbol "x'").constructor).length = 12 := by
    have htext : (Scalar.symbol "x'").constructor = "Symbol(\"x'\")" := by decide +kernel
    rw [htext, Binary.length_textBytes (by decide +kernel)]
    decide +kernel
  have hright : (textBytes (Scalar.symbol "y" / 2 - 3).constructor).length = 50 := by
    have htext : (Scalar.symbol "y" / 2 - 3).constructor = "Add(Mul(Rational(1, 2), Symbol('y')), Integer(-3))" := by
      decide +kernel
    rw [htext, Binary.length_textBytes (by decide +kernel)]
    decide +kernel
  have hlength : s.encode.length = 86 := by
    simp [s, length_encode, sides, length_encodeScalar, hleft, hright]
  have hcut : ∀ n < 86, (decode (s.encode.take n)).1 = .unreadable := by
    intro n hn
    refine (truncation_noticed (by omega)).1 _ (List.take_prefix n _) fun heq => ?_
    have htake := congrArg List.length heq
    rw [List.length_take] at htake
    omega
  exact ⟨hlength, hcut 4 (by decide), hcut 8 (by decide), hcut 28 (by decide), hcut 85 (by decide)⟩

end Substitution

end TensorEquations
