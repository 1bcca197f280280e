import CircuitGraph.Text.Layout
import Mathlib.Data.List.Basic

/-!
# Reading lines back

A text made of lines is taken apart at its line breaks. The lines come back as they were planned
when none of them holds a break of its own (`splitLines_joinLines`); behind the last line feed an
empty line begins.

A template is opened and closed by braces, so braces are counted as well. Plain text holds no brace
and no line break, and leaves the depth as it is.
-/

namespace CircuitGraph.Text

/-! ## Line breaks -/

/-- Whether a character breaks a line. -/
def isLineBreak (c : Char) : Bool := c == '\n' || c == '\r'

/-- What stands between the line breaks of a text. -/
def splitLines (s : String) : List String := (s.toList.splitOnP isLineBreak).map String.ofList

/-- Whether a text stays on its line. -/
def isOneLine (s : String) : Bool := s.toList.all fun c => !isLineBreak c

/-- The characters of a text made of lines: the first line, a line feed, and those of the others. -/
theorem toList_joinLines_cons (line : String) (lines : List String) :
    (joinLines (line :: lines)).toList = line.toList ++ '\n' :: (joinLines lines).toList := by
  have hfeed : "\n".toList = ['\n'] := rfl
  simp [joinLines, String.toList_join, hfeed]

/-- Lines that stay on their lines are read back, with an empty one behind them. -/
theorem splitLines_joinLines {lines : List String} (h : ∀ line ∈ lines, isOneLine line = true) :
    splitLines (joinLines lines) = lines ++ [""] := by
  induction lines with
  | nil => rfl
  | cons line lines ih =>
    have hline : ∀ c ∈ line.toList, isLineBreak c = false := by
      simpa [isOneLine, List.all_eq_true] using h line List.mem_cons_self
    have hrest := ih fun other hother => h other (List.mem_cons_of_mem _ hother)
    rw [splitLines, toList_joinLines_cons,
      List.splitOnP_append_cons_of_forall_mem hline '\n' rfl, List.map_cons, String.ofList_toList]
    exact congrArg (line :: ·) hrest

/-- A text stays on its line when both of its parts do. -/
@[simp] theorem isOneLine_append (s t : String) :
    isOneLine (s ++ t) = (isOneLine s && isOneLine t) := by
  simp [isOneLine]

/-- A string is its own text. -/
@[simp] theorem isOneLine_toString (s : String) : isOneLine (toString s) = isOneLine s := rfl

/-- Whether a text may stand between quotation marks: it stays on its line, and it neither ends the
quotation nor escapes anything. -/
def isQuotable (s : String) : Bool :=
  s.toList.all fun c => !isLineBreak c && c != '"' && c != '\\'

/-- A text that may stand between quotation marks stays on its line. -/
theorem isOneLine_of_isQuotable {s : String} (h : isQuotable s = true) : isOneLine s = true := by
  refine List.all_eq_true.2 fun c hc => ?_
  have hquotable := List.all_eq_true.1 h c hc
  simp only [Bool.and_eq_true] at hquotable
  exact hquotable.1.1

/-- Whether a line begins with the given words. -/
def startsWith (words line : String) : Bool := words.toList.isPrefixOf line.toList

/-- A line does not begin with words that begin with another character. -/
theorem startsWith_of_head?_ne {words line : String} (hwords : words.toList ≠ [])
    (h : line.toList.head? ≠ words.toList.head?) : startsWith words line = false := by
  rw [Bool.eq_false_iff]
  intro hprefix
  obtain ⟨rest, hrest⟩ := List.isPrefixOf_iff_prefix.1 hprefix
  rw [← hrest, List.head?_append_of_ne_nil _ hwords] at h
  exact h rfl

/-- No line is left when all of them begin with another character than the words. -/
theorem filter_startsWith_eq_nil {words : String} {lines : List String}
    (hwords : words.toList ≠ []) (h : ∀ line ∈ lines, line.toList.head? ≠ words.toList.head?) :
    lines.filter (startsWith words) = [] := by
  refine List.filter_eq_nil_iff.2 fun line hline => ?_
  rw [startsWith_of_head?_ne hwords (h line hline)]
  exact Bool.false_ne_true

/-! ## Plain text -/

/-- Whether a character neither breaks a line nor is a brace. -/
def isPlainChar (c : Char) : Bool := !isLineBreak c && c != '{' && c != '}'

/-- The four characters that are not plain. -/
theorem isPlainChar_iff {c : Char} :
    isPlainChar c = true ↔ c ≠ '\n' ∧ c ≠ '\r' ∧ c ≠ '{' ∧ c ≠ '}' := by
  simp [isPlainChar, isLineBreak, and_assoc]

/-- Whether a text holds no line break and no brace. -/
def isPlain (s : String) : Bool := s.toList.all isPlainChar

/-- Text is plain when both of its parts are. -/
@[simp] theorem isPlain_append (s t : String) : isPlain (s ++ t) = (isPlain s && isPlain t) := by
  simp [isPlain]

/-- A string is its own text. -/
@[simp] theorem isPlain_toString (s : String) : isPlain (toString s) = isPlain s := rfl

/-- A digit is plain. -/
theorem isPlainChar_of_isDigit {c : Char} (h : c.isDigit = true) : isPlainChar c = true := by
  refine isPlainChar_iff.2 ⟨?_, ?_, ?_, ?_⟩ <;> rintro rfl <;> cases h

/-- The text of a number is plain. -/
@[simp] theorem isPlain_repr (n : Nat) : isPlain n.repr = true := by
  refine List.all_eq_true.2 fun c hc => isPlainChar_of_isDigit ?_
  rw [Nat.toList_repr] at hc
  exact Nat.isDigit_of_mem_toDigits (by decide) (by decide) hc

/-- Plain text stays on its line. -/
theorem isOneLine_of_isPlain {s : String} (h : isPlain s = true) : isOneLine s = true := by
  refine List.all_eq_true.2 fun c hc => ?_
  have hplain := List.all_eq_true.1 h c hc
  simp only [isPlainChar, Bool.and_eq_true] at hplain
  exact hplain.1.1

/-- Plain texts with plain separators between them are plain. -/
theorem isPlain_intercalate {separator : String} (hseparator : isPlain separator = true)
    {texts : List String} (h : ∀ text ∈ texts, isPlain text = true) :
    isPlain (separator.intercalate texts) = true := by
  induction texts with
  | nil => rfl
  | cons text texts ih =>
    rw [List.forall_mem_cons] at h
    cases texts with
    | nil =>
      rw [String.intercalate_singleton]
      exact h.1
    | cons next texts => simp [String.intercalate_cons_cons, h.1, hseparator, ih h.2]

/-! ## Braces -/

/-- The number of braces that are open behind the characters when `depth` of them are open in front,
unless one is closed that has not been opened. -/
def braceDepth? : (depth : Nat) → List Char → Option Nat
  | depth, [] => some depth
  | depth, '{' :: cs => braceDepth? (depth + 1) cs
  | 0, '}' :: _ => none
  | depth + 1, '}' :: cs => braceDepth? depth cs
  | depth, _ :: cs => braceDepth? depth cs

/-- Plain text keeps the depth. -/
theorem braceDepth?_append {s : String} (h : isPlain s = true) (depth : Nat) (cs : List Char) :
    braceDepth? depth (s.toList ++ cs) = braceDepth? depth cs := by
  unfold isPlain at h
  generalize s.toList = chars at h
  induction chars with
  | nil => rfl
  | cons c chars ih =>
    rw [List.all_cons, Bool.and_eq_true] at h
    obtain ⟨hc, hchars⟩ := h
    obtain ⟨-, -, hopening, hclosing⟩ := isPlainChar_iff.1 hc
    rw [List.cons_append, braceDepth?, ih hchars]
    · exact hopening
    · exact fun _ => hclosing
    · exact fun _ _ => hclosing

end CircuitGraph.Text
