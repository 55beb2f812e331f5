import Mathlib
import TensorEquations.Text.Location

/-!
# Offsets and locations

* `newlinePieces` — the pieces of a text between its newlines.
* `offsetAt`, `nearestOffset` — the offset of a column of a line, and the offset of a text that is nearest to a given
  number.
* `Location.splitOn_append` — a text split at its newlines, around any place in it.
* `Location.IsAt`, `Location.offsets_correspond` — **the location of an offset names its line, and the offset is
  determined by the line and the column.**
-/

namespace TensorEquations.Text

/-- The pieces of a text between its newlines. -/
def newlinePieces (text : String) : List String := (text.toList.splitOn '\n').map String.ofList

/-- The offset of a column of a line, both counted from one: all lines before, each with its newline, and the columns
before. -/
def offsetAt (text : String) (line column : Nat) : Nat :=
  (((newlinePieces text).take (line - 1)).map fun piece => piece.length + 1).sum + (column - 1)

/-- The offset inside a text or at one of its ends that is nearest to a number. -/
def nearestOffset (text : String) (offset : Int) : Int := max 0 (min offset text.length)

namespace Location

/-! ## Splitting at newlines -/

/-- The first piece ends at the first newline. -/
theorem splitOn_head : ∀ cs : List Char, ∃ rest, cs.splitOn '\n' = upToNewline cs :: rest
  | [] => ⟨[], List.splitOn_nil _⟩
  | c :: cs => by
    obtain ⟨rest, hrest⟩ := splitOn_head cs
    rw [List.splitOn_cons_eq_if_modifyHead]
    by_cases hc : c = '\n'
    · exact ⟨cs.splitOn '\n', by simp [upToNewline, hc]⟩
    · exact ⟨rest, by simp [upToNewline, hc, hrest]⟩

/-- The characters behind the last newline. -/
def sinceNewline (cs : List Char) : List Char := (upToNewline cs.reverse).reverse

theorem sinceNewline_of_not_mem {cs : List Char} (h : '\n' ∉ cs) : sinceNewline cs = cs := by
  have hall : ∀ c ∈ cs.reverse, (c != '\n') = true := fun c hc =>
    bne_iff_ne.mpr fun hn => h (hn ▸ List.mem_reverse.mp hc)
  rw [sinceNewline, upToNewline, List.takeWhile_eq_self_iff.mpr hall, List.reverse_reverse]

/-- A character in front of the last newline, or that newline itself, makes no difference. -/
theorem sinceNewline_cons {c : Char} {cs : List Char} (h : '\n' ∈ c :: cs) :
    sinceNewline (c :: cs) = sinceNewline cs := by
  rw [sinceNewline, upToNewline, List.reverse_cons, List.takeWhile_append]
  split
  · next hall =>
    have hself := (List.takeWhile_sublist (fun d : Char => d != '\n')).eq_of_length hall
    have hnone : '\n' ∉ cs := fun hmem =>
      absurd (List.mem_takeWhile_imp (hself.symm ▸ List.mem_reverse.mpr hmem)) (by decide)
    obtain rfl : c = '\n' := ((List.mem_cons.mp h).resolve_right hnone).symm
    rw [sinceNewline_of_not_mem hnone]
    simp
  · rfl

/-- **A text split at its newlines, around any place in it.** The piece at the place goes back to the last newline
before and on to the next one behind; the pieces before it are as many as there are newlines, and with these they
make up what stands before it. -/
theorem splitOn_append (after : List Char) : ∀ before : List Char, ∃ front back,
    (before ++ after).splitOn '\n' = front ++ (sinceNewline before ++ upToNewline after) :: back ∧
    front.length = before.count '\n' ∧
    (front.map fun piece => piece.length + 1).sum + (sinceNewline before).length = before.length
  | [] => by
    obtain ⟨back, hback⟩ := splitOn_head after
    exact ⟨[], back, hback, rfl, rfl⟩
  | c :: before => by
    obtain ⟨front, back, hsplit, hcount, hlength⟩ := splitOn_append after before
    rw [List.cons_append, List.splitOn_cons_eq_if_modifyHead, hsplit]
    by_cases hc : c = '\n'
    · -- A newline in front makes an empty piece.
      rw [sinceNewline_cons (hc ▸ List.mem_cons_self)]
      refine ⟨[] :: front, back, by simp [hc], by simp [hc, hcount], ?_⟩
      simp only [List.map_cons, List.sum_cons, List.length_nil, List.length_cons]
      omega
    · cases front with
      | nil =>
        have hnone : '\n' ∉ before := List.count_eq_zero.mp hcount.symm
        have hnone' : '\n' ∉ c :: before := List.not_mem_cons_of_ne_of_not_mem (Ne.symm hc) hnone
        rw [sinceNewline_of_not_mem hnone, sinceNewline_of_not_mem hnone']
        exact ⟨[], back, by simp [hc], by simp [hc, hcount], by simp⟩
      | cons piece front =>
        have hmem : '\n' ∈ before := List.count_pos_iff.mp (by rw [← hcount]; simp)
        rw [sinceNewline_cons (List.mem_cons_of_mem _ hmem)]
        refine ⟨(c :: piece) :: front, back, by simp [hc], by simp [hc, ← hcount], ?_⟩
        simp only [List.map_cons, List.sum_cons, List.length_cons] at hlength ⊢
        omega

/-! ## Locations -/

/-- Where the beginning of a text ends: the line at its end, and the offset of the place in it. -/
theorem offsetAt_append (before after : List Char) {text : String} (htext : text.toList = before ++ after) :
    (newlinePieces text)[before.count '\n']? = some (String.ofList (sinceNewline before ++ upToNewline after)) ∧
      offsetAt text (before.count '\n' + 1) ((sinceNewline before).length + 1) = before.length := by
  obtain ⟨front, back, hsplit, hcount, hlength⟩ := splitOn_append after before
  have hpieces : newlinePieces text = front.map String.ofList ++
      String.ofList (sinceNewline before ++ upToNewline after) :: back.map String.ofList := by
    rw [newlinePieces, htext, hsplit, List.map_append, List.map_cons]
  have hfront : (front.map String.ofList).length = before.count '\n' := by rw [List.length_map, hcount]
  constructor
  · rw [hpieces, ← hfront, List.getElem?_append_right (Nat.le_refl _), Nat.sub_self, List.getElem?_cons_zero]
  · rw [offsetAt, hpieces, Nat.add_sub_cancel, Nat.add_sub_cancel, ← hfront, List.take_left, List.map_map,
      ← hlength]
    simp [Function.comp_def]

/-- A line, a column and the text of the line that say where in a text the offset nearest to a number is. -/
structure IsAt (text : String) (offset : Int) (line column : Nat) (lineText : String) : Prop where
  one_le_line : 1 ≤ line
  piece : (newlinePieces text)[line - 1]? = some lineText
  one_le_column : 1 ≤ column
  column_le : column ≤ lineText.length + 1
  nearest : (offsetAt text line column : Int) = nearestOffset text offset

variable (text : String) (offset : Int)

/-- Only the nearest offset of a text matters. -/
theorem position_eq : (min (max offset 0) text.toList.length).toNat = (nearestOffset text offset).toNat := by
  rw [nearestOffset, String.length_toList]
  omega

theorem ofOffset_isAt : ∃ line column : Nat, ∃ lineText,
    ofOffset text offset = ⟨some line, some column, some lineText⟩ ∧ IsAt text offset line column lineText := by
  obtain ⟨position, hposition⟩ : ∃ n, n = (nearestOffset text offset).toNat := ⟨_, rfl⟩
  have hnearest : (position : Int) = nearestOffset text offset := by
    rw [hposition, nearestOffset]
    omega
  have hlength : (text.toList.take position).length = position := by
    rw [List.length_take, hposition, nearestOffset, String.length_toList]
    omega
  obtain ⟨hline, hoffset⟩ := offsetAt_append _ _ (List.take_append_drop position text.toList).symm
  refine ⟨(text.toList.take position).count '\n' + 1, (sinceNewline (text.toList.take position)).length + 1, _, ?_,
    Nat.le_add_left 1 _, hline, Nat.le_add_left 1 _, ?_, ?_⟩
  · rw [ofOffset, position_eq, ← hposition]
    rfl
  · rw [String.length_ofList, List.length_append]
    omega
  · rw [hoffset, hlength, hnearest]

/-- **Offsets and locations correspond.** Every number has a location: the text of the line is the piece of the text
with the number of the line, the column is a place in it or just behind it, and the pieces before, each with its
newline, and the columns before make up the number, moved to the nearer end of the text if it is outside. So two
numbers have one line and one column exactly if they are the same when so moved. -/
theorem offsets_correspond (text : String) :
    (∀ offset, ∃ line column : Nat, ∃ lineText,
      ofOffset text offset = ⟨some line, some column, some lineText⟩ ∧ IsAt text offset line column lineText) ∧
    ∀ offset other, (ofOffset text offset).line = (ofOffset text other).line ∧
      (ofOffset text offset).column = (ofOffset text other).column ↔
        nearestOffset text offset = nearestOffset text other := by
  refine ⟨ofOffset_isAt text, fun offset other => ⟨fun ⟨hline, hcolumn⟩ => ?_, fun h => ?_⟩⟩
  · obtain ⟨line, column, lineText, heq, hat⟩ := ofOffset_isAt text offset
    obtain ⟨line', column', lineText', heq', hat'⟩ := ofOffset_isAt text other
    rw [heq, heq'] at hline hcolumn
    obtain rfl : line = line' := Int.ofNat.inj (Option.some.inj hline)
    obtain rfl : column = column' := Int.ofNat.inj (Option.some.inj hcolumn)
    exact hat.nearest.symm.trans hat'.nearest
  · have heq : ofOffset text offset = ofOffset text other := by
      simp only [ofOffset, position_eq, h]
    exact ⟨congrArg line heq, congrArg column heq⟩

/-- A newline is the last column of its line; numbers past the end mean the end. -/
example : ofOffset "ab\n\ncd" 2 = ⟨some 1, some 3, some "ab"⟩ ∧
    ofOffset "ab\n\ncd" 9 = ⟨some 3, some 3, some "cd"⟩ := by decide

end Location

end TensorEquations.Text
