/-!
# Blanks and lines

A character is blank when Unicode gives it the property `White_Space`. `trim` removes the blanks at
both ends of a text and keeps those inside it. The zero-width characters (U+200B, U+FEFF) and the
information separators (U+001C to U+001F) are not blank.

A text made of lines (`joinLines`) ends every line, the last one included, with a line feed.
-/

namespace CircuitGraph.Text

/-- The code points with the property `White_Space`, as closed ranges in ascending order. -/
def blankRanges : List (Nat × Nat) :=
  [(0x0009, 0x000D), (0x0020, 0x0020), (0x0085, 0x0085), (0x00A0, 0x00A0), (0x1680, 0x1680),
   (0x2000, 0x200A), (0x2028, 0x2029), (0x202F, 0x202F), (0x205F, 0x205F), (0x3000, 0x3000)]

/-- Whether Unicode gives the character the property `White_Space`. -/
def isBlank (c : Char) : Bool :=
  blankRanges.any fun (low, high) => low ≤ c.toNat && c.toNat ≤ high

/-- A text without the blanks at its two ends. -/
def trim (s : String) : String :=
  String.ofList ((s.toList.dropWhile isBlank).reverse.dropWhile isBlank).reverse

/-- The property covers the ASCII white space that the standard library knows. -/
theorem isBlank_of_isWhitespace {c : Char} (h : c.isWhitespace = true) : isBlank c = true := by
  simp only [Char.isWhitespace, Bool.or_eq_true, decide_eq_true_eq] at h
  rcases h with ((rfl | rfl) | rfl) | rfl <;> decide

/-- The text made of lines. -/
def joinLines (lines : List String) : String := String.join (lines.map fun line => line ++ "\n")

end CircuitGraph.Text
