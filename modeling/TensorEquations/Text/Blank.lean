/-!
# Blank characters

* `isBlank` — the white space of Unicode together with the four information separators.
* `trimBlank` — a text without the blanks at its two ends.
-/

namespace TensorEquations.Text

/-- White space of Unicode, and the separators `U+001C` to `U+001F`. -/
def isBlank (c : Char) : Bool :=
  let n := c.toNat
  (9 ≤ n && n ≤ 13) || (28 ≤ n && n ≤ 32) || n == 0x85 || n == 0xA0 || n == 0x1680 ||
    (0x2000 ≤ n && n ≤ 0x200A) || n == 0x2028 || n == 0x2029 || n == 0x202F || n == 0x205F ||
    n == 0x3000

/-- The characters without the blanks at both ends. -/
def trimChars (cs : List Char) : List Char :=
  ((cs.dropWhile isBlank).reverse.dropWhile isBlank).reverse

/-- A text without the blanks at both ends. -/
def trimBlank (text : String) : String := String.ofList (trimChars text.toList)

end TensorEquations.Text
