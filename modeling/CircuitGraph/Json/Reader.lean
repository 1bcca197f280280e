import CircuitGraph.Json.Value

/-!
# Reading JSON

`Value.parse` reads a text that is exactly one JSON value between spaces. The grammar is strict: no
comments, no comma before a closing bracket, no leading zeros, no control characters inside strings,
and only space, tab, line feed and carriage return between tokens.

The reader is one loop over the input. The arrays and objects that are open around the current place
form a list of frames, the innermost first, so nesting of any depth is read in constant stack space,
and every step of the loop shortens the input.
-/

namespace CircuitGraph.Json

open CircuitGraph.Text

/-- Whether a character may stand between tokens. -/
def isSpace (c : Char) : Bool := c == ' ' || c == '\t' || c == '\n' || c == '\r'

/-- The input from the next token on. -/
def dropSpace (input : List Char) : List Char := input.dropWhile isSpace

/-- Skipping spaces never lengthens the input. -/
theorem length_dropSpace_le (input : List Char) : (dropSpace input).length ≤ input.length :=
  (List.dropWhile_sublist _).length_le

/-! ## Strings -/

/-- One element of a string literal: a character that stands for itself or is escaped by a letter,
or the code unit of an escape with four digits. -/
inductive Piece
  /-- A character. -/
  | char (c : Char)
  /-- A code unit of 16 bits. -/
  | unit (n : Nat)
deriving DecidableEq, Repr

/-- The value of a hexadecimal digit of either case. -/
def hexDigit? (c : Char) : Option Nat :=
  if '0' ≤ c ∧ c ≤ '9' then some (c.toNat - '0'.toNat)
  else if 'a' ≤ c ∧ c ≤ 'f' then some (c.toNat - 'a'.toNat + 10)
  else if 'A' ≤ c ∧ c ≤ 'F' then some (c.toNat - 'A'.toNat + 10)
  else none

/-- The code unit written by four hexadecimal digits. -/
def codeUnit? (a b c d : Char) : Option Nat := do
  return 4096 * (← hexDigit? a) + 256 * (← hexDigit? b) + 16 * (← hexDigit? c) + (← hexDigit? d)

/-- The character that a letter stands for after a backslash. -/
def escaped? : Char → Option Char
  | '"' => some '"'
  | '\\' => some '\\'
  | '/' => some '/'
  | 'b' => some '\x08'
  | 'f' => some '\x0c'
  | 'n' => some '\n'
  | 'r' => some '\r'
  | 't' => some '\t'
  | _ => none

/-- The pieces of a string literal up to its closing quote, put in front of those read before
(newest first), with the input after the quote. -/
def readPieces (before : List Piece) : List Char → Option (List Piece × List Char)
  | [] => none
  | '"' :: rest => some (before.reverse, rest)
  | '\\' :: 'u' :: a :: b :: c :: d :: rest =>
    match codeUnit? a b c d with
    | some n => readPieces (.unit n :: before) rest
    | none => none
  | '\\' :: letter :: rest =>
    match escaped? letter with
    | some c => readPieces (.char c :: before) rest
    | none => none
  | c :: rest => if c < ' ' ∨ c = '\\' then none else readPieces (.char c :: before) rest

/-- Whether a code unit is the first half of a surrogate pair. -/
def isHighSurrogate (n : Nat) : Bool := 0xD800 ≤ n && n < 0xDC00

/-- Whether a code unit is the second half of a surrogate pair. -/
def isLowSurrogate (n : Nat) : Bool := 0xDC00 ≤ n && n < 0xE000

/-- The character of a surrogate pair. -/
def pairedChar (high low : Nat) : Char :=
  Char.ofNat (0x10000 + (high - 0xD800) * 0x400 + (low - 0xDC00))

/-- The text of pieces, behind the characters decoded before (newest first). Two escapes that form a
surrogate pair give one character; any other surrogate leaves the literal without a text. -/
def textOfPieces (before : List Char) : List Piece → Literal
  | [] => some (String.ofList before.reverse)
  | .char c :: rest => textOfPieces (c :: before) rest
  | .unit high :: .unit low :: rest =>
    if isHighSurrogate high && isLowSurrogate low then
      textOfPieces (pairedChar high low :: before) rest
    else if isHighSurrogate high || isLowSurrogate high then
      none
    else
      textOfPieces (Char.ofNat high :: before) (.unit low :: rest)
  | .unit n :: rest =>
    if isHighSurrogate n || isLowSurrogate n then none
    else textOfPieces (Char.ofNat n :: before) rest

/-- Reads a string literal after its opening quote. -/
def readLiteral (input : List Char) : Option (Literal × List Char) :=
  match readPieces [] input with
  | some (pieces, rest) => some (textOfPieces [] pieces, rest)
  | none => none

/-- The pieces of a string literal take up at least its closing quote. -/
theorem readPieces_shorter {before : List Piece} {input : List Char} {pieces : List Piece}
    {rest : List Char} (h : readPieces before input = some (pieces, rest)) :
    rest.length < input.length := by
  fun_induction readPieces before input with
  | case1 => cases h
  | case2 =>
    obtain ⟨-, rfl⟩ := Prod.mk.inj (Option.some.inj h)
    simp
  | case3 _ _ _ _ _ _ _ _ ih | case5 _ _ _ _ _ _ ih | case8 _ _ _ _ _ _ _ ih =>
    have := ih h
    simp only [List.length_cons]
    omega
  | case4 | case6 | case7 => cases h

/-- A string literal takes up at least its closing quote. -/
theorem readLiteral_shorter {input : List Char} {content : Literal} {rest : List Char}
    (h : readLiteral input = some (content, rest)) : rest.length < input.length := by
  unfold readLiteral at h
  split at h
  · next hp =>
    obtain ⟨-, rfl⟩ := Prod.mk.inj (Option.some.inj h)
    exact readPieces_shorter hp
  · cases h

/-! ## Numbers -/

/-- The digits at the start of the input, and the rest. -/
def readDigits (input : List Char) : List Nat × List Char :=
  ((input.takeWhile Char.isDigit).map digitValue, input.dropWhile Char.isDigit)

/-- The fraction at the start of the input, if there is a point, and the rest. -/
def readFraction : List Char → Option (List Nat × List Char)
  | '.' :: input =>
    let (digits, rest) := readDigits input
    if digits.isEmpty then none else some (digits, rest)
  | input => some ([], input)

/-- The sign at the start of an exponent: whether it is a minus sign, and the rest. -/
def readExponentSign : List Char → Bool × List Char
  | '+' :: input => (false, input)
  | '-' :: input => (true, input)
  | input => (false, input)

/-- The exponent at the start of the input, if there is one, and the rest. -/
def readExponent : List Char → Option (Option Int × List Char)
  | [] => some (none, [])
  | c :: input =>
    if c = 'e' ∨ c = 'E' then
      let (negative, input) := readExponentSign input
      let (digits, rest) := readDigits input
      let size : Int := ofDigits digits
      if digits.isEmpty then none else some (some (if negative then -size else size), rest)
    else
      some (none, c :: input)

/-- The number without its sign at the start of the input, and the rest. -/
def readUnsigned (negative : Bool) (input : List Char) : Option (Numeral × List Char) :=
  let (whole, rest) := readDigits input
  if whole.isEmpty ∨ (whole.head? = some 0 ∧ 1 < whole.length) then
    none
  else
    match readFraction rest with
    | none => none
    | some (fraction, rest) =>
      match readExponent rest with
      | none => none
      | some (exponent, rest) => some (⟨negative, whole, fraction, exponent⟩, rest)

/-- The number at the start of the input, and the rest. -/
def readNumeral : List Char → Option (Numeral × List Char)
  | '-' :: input => readUnsigned true input
  | input => readUnsigned false input

/-- Skipping digits never lengthens the input. -/
theorem length_readDigits_le (input : List Char) : (readDigits input).2.length ≤ input.length :=
  (List.dropWhile_sublist _).length_le

/-- Digits that are read shorten the input. -/
theorem readDigits_shorter {input : List Char} (h : (readDigits input).1.isEmpty = false) :
    (readDigits input).2.length < input.length := by
  cases input with
  | nil => simp [readDigits] at h
  | cons c cs =>
    by_cases hc : c.isDigit
    · have := length_readDigits_le cs
      simp only [readDigits] at this ⊢
      rw [List.dropWhile_cons_of_pos hc]
      simp only [List.length_cons]
      omega
    · simp [readDigits, List.takeWhile_cons_of_neg hc] at h

/-- Reading a fraction never lengthens the input. -/
theorem readFraction_le {input : List Char} {digits : List Nat} {rest : List Char}
    (h : readFraction input = some (digits, rest)) : rest.length ≤ input.length := by
  unfold readFraction at h
  split at h
  · next cs =>
    have := length_readDigits_le cs
    grind
  · grind

/-- Reading an exponent never lengthens the input. -/
theorem readExponent_le {input : List Char} {exponent : Option Int} {rest : List Char}
    (h : readExponent input = some (exponent, rest)) : rest.length ≤ input.length := by
  unfold readExponent at h
  split at h
  · grind
  · next c cs =>
    have hs : (readExponentSign cs).2.length ≤ cs.length := by
      unfold readExponentSign
      split <;> simp
    have := length_readDigits_le (readExponentSign cs).2
    grind

/-- A number takes up at least one digit. -/
theorem readUnsigned_shorter {negative : Bool} {input : List Char} {n : Numeral} {rest : List Char}
    (h : readUnsigned negative input = some (n, rest)) : rest.length < input.length := by
  unfold readUnsigned at h
  split at h
  next whole rest₁ hw =>
  split at h
  · cases h
  · next hne =>
    have hd : rest₁.length < input.length := by
      have := @readDigits_shorter input
      grind
    split at h
    · cases h
    · next hf =>
      have := readFraction_le hf
      split at h
      · cases h
      · next he =>
        have := readExponent_le he
        grind

/-- A number takes up at least one digit. -/
theorem readNumeral_shorter {input : List Char} {n : Numeral} {rest : List Char}
    (h : readNumeral input = some (n, rest)) : rest.length < input.length := by
  unfold readNumeral at h
  split at h
  · have := readUnsigned_shorter h
    simp only [List.length_cons]
    omega
  · exact readUnsigned_shorter h

/-! ## Values -/

/-- An array or an object that is open around the place being read. -/
inductive Frame
  /-- An array with the elements before the place, newest first. -/
  | array (before : List Value)
  /-- An object with the members before the place, newest first, and the name of the member whose
  value is read. -/
  | object (before : List (Literal × Value)) (name : Literal)

/-- What stands at the start of a value: a value that is read in one go, or an array or an object
that opens and is not empty. -/
inductive Opening
  /-- A complete value. -/
  | value (v : Value)
  /-- A new frame, to be filled by the values that follow. -/
  | frame (f : Frame)

/-- The name of a member and the colon behind it. -/
def readName (input : List Char) : Option (Literal × List Char) :=
  match dropSpace input with
  | '"' :: input =>
    match readLiteral input with
    | none => none
    | some (name, rest) =>
      match dropSpace rest with
      | ':' :: rest => some (name, rest)
      | _ => none
  | _ => none

/-- The start of a value. -/
def readOpening (input : List Char) : Option (Opening × List Char) :=
  match dropSpace input with
  | 'n' :: 'u' :: 'l' :: 'l' :: rest => some (.value .null, rest)
  | 't' :: 'r' :: 'u' :: 'e' :: rest => some (.value (.bool true), rest)
  | 'f' :: 'a' :: 'l' :: 's' :: 'e' :: rest => some (.value (.bool false), rest)
  | '"' :: rest =>
    match readLiteral rest with
    | some (content, rest) => some (.value (.string content), rest)
    | none => none
  | '[' :: rest =>
    match dropSpace rest with
    | ']' :: rest => some (.value (.array []), rest)
    | rest => some (.frame (.array []), rest)
  | '{' :: rest =>
    match dropSpace rest with
    | '}' :: rest => some (.value (.object []), rest)
    | rest =>
      match readName rest with
      | some (name, rest) => some (.frame (.object [] name), rest)
      | none => none
  | input =>
    match readNumeral input with
    | some (n, rest) => some (.value (.number n), rest)
    | none => none

/-- The name of a member shortens the input. -/
theorem readName_shorter {input : List Char} {name : Literal} {rest : List Char}
    (h : readName input = some (name, rest)) : rest.length < input.length := by
  have hi := length_dropSpace_le input
  unfold readName at h
  split at h
  · next cs hc =>
    rw [hc, List.length_cons] at hi
    split at h
    · cases h
    · next content rest₁ hl =>
      have hs := readLiteral_shorter hl
      have hr := length_dropSpace_le rest₁
      grind
  · cases h

/-- The start of a value shortens the input. -/
theorem readOpening_shorter {input : List Char} {o : Opening} {rest : List Char}
    (h : readOpening input = some (o, rest)) : rest.length < input.length := by
  have hi := length_dropSpace_le input
  unfold readOpening at h
  split at h
  · grind
  · grind
  · grind
  · next cs hc =>
    have := @readLiteral_shorter cs
    grind
  · next cs hc =>
    have := length_dropSpace_le cs
    grind
  · next cs hc =>
    have hs := length_dropSpace_le cs
    have := @readName_shorter (dropSpace cs)
    grind
  · have := @readNumeral_shorter (dropSpace input)
    grind

/-- Reads on from a place inside the given frames. With `latest = none` a value is expected; with
`some v` the value `v` has just been read and belongs to the innermost frame. -/
def readFrom (frames : List Frame) (latest : Option Value) (input : List Char) : Option Value :=
  match latest with
  | none =>
    match _h : readOpening input with
    | some (.value v, rest) => readFrom frames (some v) rest
    | some (.frame f, rest) => readFrom (f :: frames) none rest
    | none => none
  | some v =>
    match frames, _h : dropSpace input with
    | [], [] => some v
    | .array before :: frames, ',' :: rest => readFrom (.array (v :: before) :: frames) none rest
    | .array before :: frames, ']' :: rest =>
      readFrom frames (some (.array (v :: before).reverse)) rest
    | .object before name :: frames, ',' :: rest =>
      match _h : readName rest with
      | some (next, rest) => readFrom (.object ((name, v) :: before) next :: frames) none rest
      | none => none
    | .object before name :: frames, '}' :: rest =>
      readFrom frames (some (.object ((name, v) :: before).reverse)) rest
    | _, _ => none
termination_by input.length
decreasing_by
  · exact readOpening_shorter _h
  · exact readOpening_shorter _h
  · have := length_dropSpace_le input
    grind
  · have := length_dropSpace_le input
    grind
  · have := length_dropSpace_le input
    have := readName_shorter _h
    grind
  · have := length_dropSpace_le input
    grind

/-- The value that a text writes. -/
def Value.parse (s : String) : Option Value := readFrom [] none s.toList

end CircuitGraph.Json
