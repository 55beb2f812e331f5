import TensorEquations.Proofs.Equation.Whole

/-!
# The program of an equation without comments

The source of an equation ends at its first `//`, and a program is read after each of its lines is cut at `//`. The
second cut finds nothing to do in the program of an equation.

* `Text.newlines` — a text with each of its line breaks turned into a newline.
* `Text.intercalate_splitLinesFrom` — the lines of a text that does not end with a line break, joined by newlines.
* `Text.stripComments_of_isUncommented` — **text without `//` only has its line breaks changed.**
* `ParsedEquation.isUncommented_expression` — the program of an equation has no `//`.
* `ParsedEquation.no_comment_survives` — **so the program is read as it is written.**
-/

namespace TensorEquations

namespace Text

/-! ## Lines -/

/-- Each line break turned into a newline; `\r\n` is one line break. -/
def newlines : List Char → List Char
  | [] => []
  | '\r' :: '\n' :: cs => '\n' :: newlines cs
  | c :: cs => (if isLineBreak c then '\n' else c) :: newlines cs

theorem splitLinesFrom_ne_nil {line cs : List Char} (h : line ≠ [] ∨ cs ≠ []) : splitLinesFrom line cs ≠ [] := by
  fun_induction splitLinesFrom line cs with
  | case1 line hempty => exact absurd (List.isEmpty_iff.mp hempty) (h.resolve_right (not_not_intro rfl))
  | case2 => exact List.cons_ne_nil _ _
  | case3 => exact List.cons_ne_nil _ _
  | case4 => exact List.cons_ne_nil _ _
  | case5 line c cs _ hc ih => exact ih (.inl (List.cons_ne_nil _ _))

/-- Text that does not end with a line break. -/
def EndsInLine (cs : List Char) : Prop := ∀ c ∈ cs.getLast?, ¬ isLineBreak c

/-- Text behind a line break does not end with one either, and there is some. -/
theorem EndsInLine.tail {c : Char} {cs : List Char} (hc : isLineBreak c) (h : EndsInLine (c :: cs)) :
    cs ≠ [] ∧ EndsInLine cs := by
  cases cs with
  | nil => exact absurd hc (h c rfl)
  | cons d cs => exact ⟨List.cons_ne_nil _ _, h⟩

theorem intercalate_newline_cons (first : List Char) {lines : List (List Char)} (h : lines ≠ []) :
    ['\n'].intercalate (first :: lines) = first ++ '\n' :: ['\n'].intercalate lines := by
  obtain ⟨next, lines, rfl⟩ := List.exists_cons_of_ne_nil h
  rw [List.intercalate_cons_cons, List.append_assoc, List.singleton_append]

/-- **The lines of a text, joined by newlines**; `line` is the reversed beginning of the first one. -/
theorem intercalate_splitLinesFrom (line cs : List Char) (h : EndsInLine cs) :
    ['\n'].intercalate (splitLinesFrom line cs) = line.reverse ++ newlines cs := by
  fun_induction splitLinesFrom line cs with
  | case1 line hempty => rw [List.isEmpty_iff.mp hempty]; rfl
  | case2 line hempty => simp [newlines]
  | case3 line cs ih =>
    obtain ⟨-, h⟩ := EndsInLine.tail (c := '\r') (by decide) h
    obtain ⟨hne, h⟩ := EndsInLine.tail (c := '\n') (by decide) h
    rw [intercalate_newline_cons _ (splitLinesFrom_ne_nil (.inr hne)), ih h]
    rfl
  | case4 line c cs hpair hc ih =>
    obtain ⟨hne, h⟩ := h.tail hc
    rw [intercalate_newline_cons _ (splitLinesFrom_ne_nil (.inr hne)), ih h, newlines, if_pos hc]
    · rfl
    · exact hpair
  | case5 line c cs hpair hc ih =>
    have h : EndsInLine cs := by
      cases cs with
      | nil =>
        intro c hc
        cases hc
      | cons d cs => exact h
    rw [ih h, newlines, if_neg hc, List.reverse_cons, List.append_assoc, List.singleton_append]
    exact hpair

/-- A line is a part of the text. -/
theorem infix_of_mem_splitLinesFrom {line cs found : List Char} (h : found ∈ splitLinesFrom line cs) :
    found <:+: line.reverse ++ cs := by
  fun_induction splitLinesFrom line cs with
  | case1 => cases h
  | case2 line =>
    rw [List.mem_singleton.mp h, List.append_nil]
  | case3 line cs ih =>
    rcases List.mem_cons.mp h with rfl | h
    · exact (List.prefix_append _ _).isInfix
    · exact (ih h).trans ⟨line.reverse ++ ['\r', '\n'], [], by simp⟩
  | case4 line c cs _ _ ih =>
    rcases List.mem_cons.mp h with rfl | h
    · exact (List.prefix_append _ _).isInfix
    · exact (ih h).trans ⟨line.reverse ++ [c], [], by simp⟩
  | case5 line c cs _ _ ih => simpa using ih h

/-! ## Text without comments -/

theorem beforeComment_of_isUncommented : ∀ {cs : List Char}, IsUncommented cs → beforeComment cs = cs
  | [], _ => rfl
  | c :: cs, h => by
    rw [beforeComment_plain fun hp => h hp.isInfix, beforeComment_of_isUncommented h.tail]

/-- No line of a text without comments is cut. -/
theorem beforeComment_line {text line : List Char} (h : IsUncommented text) (hline : line ∈ splitLinesFrom [] text) :
    beforeComment line = line :=
  beforeComment_of_isUncommented fun hi => h (hi.trans (infix_of_mem_splitLinesFrom hline))

/-- **Text without comments only has its line breaks changed.** -/
theorem stripComments_of_isUncommented {text : String} (h : IsUncommented text.toList)
    (hend : EndsInLine text.toList) : stripComments text = String.ofList (newlines text.toList) := by
  have hlines : (splitLinesFrom [] text.toList).map (String.toList ∘ fun line => String.ofList (beforeComment line)) =
      splitLinesFrom [] text.toList := by
    rw [List.map_congr_left (g := id) fun line hline => ?_, List.map_id]
    exact String.toList_ofList.trans (beforeComment_line h hline)
  rw [← String.toList_inj, String.toList_ofList, stripComments, String.toList_intercalate, List.map_map, hlines]
  exact intercalate_splitLinesFrom [] _ hend

end Text

namespace ParsedEquation

variable {p : ParsedEquation}

/-! ## The program of an equation -/

/-- What is put around a body brings no comment in. -/
theorem isUncommented_expression (h : IsUncommented p.body.toList) : IsUncommented p.expression.toList := by
  have hback : IsUncommented (p.body.toList ++ [')', ':']) := .append_cons (by decide) (.of_not_mem (by decide)) h
  have hcall : IsUncommented ("HomogeneousSystem".toList ++ '(' :: (p.body.toList ++ [')', ':'])) :=
    .append_cons (by decide) hback (.of_not_mem (by decide))
  rw [toList_expression]
  exact .append_cons (by decide) (.cons (by decide) (.cons (by decide) hcall)) (.of_not_mem (by decide))

/-- The program of an equation ends with its separator. -/
theorem endsInLine_expression (p : ParsedEquation) : Text.EndsInLine p.expression.toList := by
  have hback : "):".toList = [')', ':'] := by decide
  have hexpression : p.expression = "subst = HomogeneousSystem(" ++ p.body ++ "):" := rfl
  intro c hc
  rw [hexpression, String.toList_append, hback, List.append_cons, List.getLast?_concat] at hc
  obtain rfl : ':' = c := Option.some.inj hc
  decide

/-- **No comment survives into the program of an equation.** Neither the body of a source that is read nor the program
around it has a `//`; so no line of the program is cut, and what is parsed is the program, bracket and separator
included, with its line breaks turned into newlines and nothing else changed. -/
theorem no_comment_survives {code : String} (h : parseEquation code = .ok p) :
    IsUncommented p.body.toList ∧ IsUncommented p.expression.toList ∧
      (∀ line ∈ Text.splitLinesFrom [] p.expression.toList, Text.beforeComment line = line) ∧
      Text.stripComments p.expression = String.ofList (Text.newlines p.expression.toList) ∧
      Interpreter.program p.expression = parse (String.ofList (Text.newlines p.expression.toList)) := by
  have hbody := isUncommented_body h
  have hexpression := isUncommented_expression hbody
  have hstrip := Text.stripComments_of_isUncommented hexpression p.endsInLine_expression
  exact ⟨hbody, hexpression, fun _ => Text.beforeComment_line hexpression, hstrip, congrArg parse hstrip⟩

/-- A source with single slashes on both sides of a tag, a line break and a comment. -/
def dividedSource : String := "1/#<x:0:0:0:0:\x7b\x7d>/\r\n2 // half"

/-- The comment is gone, and the single slashes and the line break are still there. -/
def dividedBody : String := "1/RenameIndices(Coefficient_x_0_0_0_0, \x7b\x7d, \x7b\x7d)/\r\n2 "

/-- The comment of a source is not in its program, and the program is cut nowhere. -/
theorem no_comment_survives_divided : ∃ p, parseEquation dividedSource = .ok p ∧ p.body = dividedBody ∧
    IsUncommented p.expression.toList ∧ Text.stripComments p.expression =
      "subst = HomogeneousSystem(1/RenameIndices(Coefficient_x_0_0_0_0, \x7b\x7d, \x7b\x7d)/\n2 ):" := by
  obtain ⟨p, hparse, hbody⟩ : ∃ p, parseEquation dividedSource = .ok p ∧ p.body = dividedBody :=
    map_eq_ok (by decide +kernel)
  obtain ⟨-, huncommented, -, hstrip, -⟩ := no_comment_survives hparse
  have hprogram : p.expression = "subst = HomogeneousSystem(" ++ dividedBody ++ "):" :=
    congrArg (fun body => "subst = HomogeneousSystem(" ++ body ++ "):") hbody
  refine ⟨p, hparse, hbody, huncommented, hstrip.trans ?_⟩
  have hnewlines := congrArg (fun text : String => String.ofList (Text.newlines text.toList)) hprogram
  exact hnewlines.trans (by decide +kernel)

end ParsedEquation

end TensorEquations
