import CircuitGraph.Json.Printer
import CircuitGraph.Json.Reader
import CircuitGraph.Proofs.Text.Separator
import CircuitGraph.Proofs.Text.Word
import Mathlib.Tactic.SplitIfs

/-!
# What is written is read back

The reader gives back every value that is made of texts and natural numbers
(`Value.parse_pretty_append`): texts of any characters, `null`, truth values, arrays and objects,
nested in any way. Other numerals are left out; what they mean is decided where they are used.

The argument follows the reader. A literal is read character by character
(`readPieces_escapeChar`), whatever follows it. A number is read up to a character that does not
belong to it (`readNumeral_ofNat`), and behind a value there always stands such a character
(`endsNumber_prettyElements`, `endsNumber_prettyMembers`). A value that stands at the place being
read is read to its end, after which the reader goes on behind it with the value in hand
(`readFrom_prettyAt`); the elements and members that are still to come are put into the innermost
frame one after the other (`readFrom_prettyElements`, `readFrom_prettyMembers`).
-/

namespace CircuitGraph.Json

open CircuitGraph.Text

/-! ## Characters -/

/-- A digit that is written for a number below 16 is read as this number. -/
theorem hexDigit?_hexDigit {n : Nat} (h : n < 16) : hexDigit? (hexDigit n) = some n := by
  have hall : ∀ n < 16, hexDigit? (hexDigit n) = some n := by decide
  exact hall n h

/-- The four digits that are written for a number below 32 are read as this number. -/
theorem codeUnit?_hexDigit {n : Nat} (h : n < 32) :
    codeUnit? '0' '0' (hexDigit (n / 16)) (hexDigit (n % 16)) = some n := by
  have hzero : hexDigit? '0' = some 0 := by decide
  have hhigh : hexDigit? (hexDigit (n / 16)) = some (n / 16) := hexDigit?_hexDigit (by omega)
  have hlow : hexDigit? (hexDigit (n % 16)) = some (n % 16) := hexDigit?_hexDigit (by omega)
  have hsum : 4096 * 0 + 256 * 0 + 16 * (n / 16) + n % 16 = n := by omega
  simp only [codeUnit?, hzero, hhigh, hlow, Option.bind_eq_bind, Option.bind_some, Option.pure_def,
    hsum]

/-- The piece of a literal that a character is written as. -/
def pieceOf (c : Char) : Piece :=
  if c < ' ' ∧ c ∉ ['\x08', '\x0c', '\n', '\r', '\t'] then .unit c.toNat else .char c

/-- A character is read as its piece, whatever follows. -/
theorem readPieces_escapeChar (before : List Piece) (c : Char) (rest : List Char) :
    readPieces before (escapeChar c ++ rest) = readPieces (pieceOf c :: before) rest := by
  unfold escapeChar
  split_ifs with hquote hslash hb hf hn hr ht hcontrol
  · subst hquote
    simp +decide [readPieces, escaped?, pieceOf]
  · subst hslash
    simp +decide [readPieces, escaped?, pieceOf]
  · subst hb
    simp +decide [readPieces, escaped?, pieceOf]
  · subst hf
    simp +decide [readPieces, escaped?, pieceOf]
  · subst hn
    simp +decide [readPieces, escaped?, pieceOf]
  · subst hr
    simp +decide [readPieces, escaped?, pieceOf]
  · subst ht
    simp +decide [readPieces, escaped?, pieceOf]
  · have hletters : c ∉ ['\x08', '\x0c', '\n', '\r', '\t'] := by
      simp [hb, hf, hn, hr, ht]
    have hsmall : c.toNat < 32 := hcontrol
    rw [pieceOf, if_pos ⟨hcontrol, hletters⟩]
    simp only [List.cons_append, List.nil_append]
    rw [readPieces, codeUnit?_hexDigit hsmall]
  · have hraw : ¬ (c < ' ' ∨ c = '\\') := fun h => h.elim hcontrol hslash
    rw [pieceOf, if_neg fun h => hcontrol h.1, List.singleton_append, readPieces, if_neg hraw]
    · exact hquote
    · exact fun _ _ _ _ _ h => absurd h hslash
    · exact fun _ _ h => absurd h hslash

/-- The characters of a text are read as their pieces, up to the closing quote. -/
theorem readPieces_flatMap (before : List Piece) (cs rest : List Char) :
    readPieces before (cs.flatMap escapeChar ++ '"' :: rest) =
      some (before.reverse ++ cs.map pieceOf, rest) := by
  induction cs generalizing before with
  | nil => simp [readPieces]
  | cons c cs ih =>
    rw [List.flatMap_cons, List.append_assoc, readPieces_escapeChar, ih]
    simp

/-- The code unit of a control character is no surrogate. -/
theorem textOfPieces_unit (before : List Char) {c : Char} (h : c < ' ') (rest : List Piece) :
    textOfPieces before (.unit c.toNat :: rest) = textOfPieces (c :: before) rest := by
  have hsmall : c.toNat < 32 := h
  have hhigh : isHighSurrogate c.toNat = false := by
    simp only [isHighSurrogate, Bool.and_eq_false_iff, decide_eq_false_iff_not]
    omega
  have hlow : isLowSurrogate c.toNat = false := by
    simp only [isLowSurrogate, Bool.and_eq_false_iff, decide_eq_false_iff_not]
    omega
  cases rest with
  | nil => simp [textOfPieces, hhigh, hlow, Char.ofNat_toNat]
  | cons piece rest =>
    cases piece with
    | char d => simp [textOfPieces, hhigh, hlow, Char.ofNat_toNat]
    | unit n => simp [textOfPieces, hhigh, hlow, Char.ofNat_toNat]

/-- The pieces of characters give the characters back. -/
theorem textOfPieces_map (before cs : List Char) :
    textOfPieces before (cs.map pieceOf) = some (String.ofList (before.reverse ++ cs)) := by
  induction cs generalizing before with
  | nil => simp [textOfPieces]
  | cons c cs ih =>
    have hpiece : textOfPieces before (pieceOf c :: cs.map pieceOf) =
        textOfPieces (c :: before) (cs.map pieceOf) := by
      unfold pieceOf
      split_ifs with hcontrol
      · exact textOfPieces_unit before hcontrol.1 _
      · rw [textOfPieces]
    rw [List.map_cons, hpiece, ih]
    simp

/-- A text is read back from its literal, behind the opening quote. -/
theorem readLiteral_flatMap (s : String) (rest : List Char) :
    readLiteral (s.toList.flatMap escapeChar ++ '"' :: rest) = some (some s, rest) := by
  rw [readLiteral, readPieces_flatMap]
  simp [textOfPieces_map]

/-- A literal begins with a quote and ends with one. -/
theorem toList_quote_append (s : String) (rest : List Char) :
    (quote s).toList ++ rest = '"' :: (s.toList.flatMap escapeChar ++ '"' :: rest) := by
  simp [quote]

/-! ## Numbers -/

/-- Whether a number ends in front of a text: what comes first does not belong to a number. -/
def endsNumber : List Char → Bool
  | [] => true
  | c :: _ => !(c.isDigit || c == '.' || c == 'e' || c == 'E')

/-- The digit for the value of a digit is the digit. -/
theorem digitChar_digitValue {c : Char} (h : c.isDigit = true) :
    Nat.digitChar (digitValue c) = c := by
  have hcode : 48 ≤ c.toNat ∧ c.toNat ≤ 57 := Char.isDigit_iff_toNat.1 h
  have hall : ∀ m < 10, Nat.digitChar m = Char.ofNat (48 + m) := by decide
  have hvalue : digitValue c = c.toNat - 48 := rfl
  have hsum : 48 + (c.toNat - 48) = c.toNat := by omega
  rw [hvalue, hall _ (by omega), hsum, Char.ofNat_toNat]

/-- A digit is not a space. -/
theorem isSpace_eq_false_of_isDigit {c : Char} (h : c.isDigit = true) : isSpace c = false := by
  by_contra hspace
  simp only [Bool.not_eq_false, isSpace, Bool.or_eq_true, beq_iff_eq] at hspace
  rcases hspace with ((rfl | rfl) | rfl) | rfl <;> exact absurd h (by decide)

/-- A natural number is written by its digits. -/
theorem toList_print_ofNat (n : Nat) : (Numeral.ofNat n).print.toList = Nat.toDigits 10 n := by
  have hdigits : (Nat.toDigits 10 n).map (Nat.digitChar ∘ digitValue) = Nat.toDigits 10 n := by
    have hid : ∀ c ∈ Nat.toDigits 10 n, (Nat.digitChar ∘ digitValue) c = id c := fun c hc =>
      digitChar_digitValue (isDigit_of_mem_toDigits hc)
    rw [List.map_congr_left hid, List.map_id]
  simp [Numeral.print, Numeral.ofNat, printDigits, hdigits]

/-- Digits are read up to a character that does not belong to a number. -/
theorem readDigits_append {digits rest : List Char} (hdigits : ∀ c ∈ digits, c.isDigit = true)
    (h : endsNumber rest = true) :
    readDigits (digits ++ rest) = (digits.map digitValue, rest) := by
  have hrest : rest.takeWhile Char.isDigit = [] ∧ rest.dropWhile Char.isDigit = rest := by
    cases rest with
    | nil => exact ⟨rfl, rfl⟩
    | cons c rest =>
      have hc : ¬ c.isDigit = true := by
        intro hdigit
        simp [endsNumber, hdigit] at h
      exact ⟨List.takeWhile_cons_of_neg hc, List.dropWhile_cons_of_neg hc⟩
  rw [readDigits, List.takeWhile_append_of_pos hdigits, List.dropWhile_append_of_pos hdigits,
    hrest.1, hrest.2, List.append_nil]

/-- No fraction stands behind the end of a number. -/
theorem readFraction_of_endsNumber {rest : List Char} (h : endsNumber rest = true) :
    readFraction rest = some ([], rest) := by
  unfold readFraction
  split
  · cases h
  · rfl

/-- No exponent stands behind the end of a number. -/
theorem readExponent_of_endsNumber {rest : List Char} (h : endsNumber rest = true) :
    readExponent rest = some (none, rest) := by
  cases rest with
  | nil => rfl
  | cons c rest =>
    have hletter : ¬ (c = 'e' ∨ c = 'E') := by
      rintro (rfl | rfl)
      · cases h
      · cases h
    rw [readExponent, if_neg hletter]

/-- A natural number is read to its end. -/
theorem readNumeral_ofNat (n : Nat) {rest : List Char} (h : endsNumber rest = true) :
    readNumeral ((Numeral.ofNat n).print.toList ++ rest) = some (.ofNat n, rest) := by
  have hdigits : ∀ c ∈ Nat.toDigits 10 n, c.isDigit = true := fun c => isDigit_of_mem_toDigits
  have hread := readDigits_append hdigits h
  -- there is a digit, and a zero in front is the only one
  have hwhole : ¬ (((Nat.toDigits 10 n).map digitValue).isEmpty = true ∨
      (((Nat.toDigits 10 n).map digitValue).head? = some 0 ∧
        1 < ((Nat.toDigits 10 n).map digitValue).length)) := by
    rintro (hempty | ⟨hzero, hlong⟩)
    · exact Nat.toDigits_ne_nil (List.map_eq_nil_iff.1 (List.isEmpty_iff.1 hempty))
    · rw [List.head?_map, Option.map_eq_some_iff] at hzero
      obtain ⟨c, hc, hvalue⟩ := hzero
      have hchar := digitChar_digitValue (hdigits c (List.mem_of_mem_head? hc))
      rw [hvalue] at hchar
      subst hchar
      rcases Nat.eq_zero_or_pos n with rfl | hpos
      · exact absurd hlong (by decide)
      · exact head?_toDigits_ne hpos hc
  have hunsigned : readUnsigned false (Nat.toDigits 10 n ++ rest) = some (.ofNat n, rest) := by
    rw [readUnsigned, hread]
    simp only [if_neg hwhole, readFraction_of_endsNumber h, readExponent_of_endsNumber h]
    rfl
  rw [toList_print_ofNat]
  unfold readNumeral
  split
  · rename_i input heq
    -- a minus sign is no digit
    obtain ⟨c, cs, hlist, hc⟩ := exists_toDigits_eq_cons n
    rw [hlist] at heq
    rw [(List.cons.inj heq).1] at hc
    exact absurd hc (by decide)
  · exact hunsigned

/-! ## Steps of the reader -/

section

variable {frames : List Frame} {input rest : List Char}

/-- A complete value is in hand when it has been read. -/
theorem readFrom_value {v : Value} (h : readOpening input = some (.value v, rest)) :
    readFrom frames none input = readFrom frames (some v) rest := by
  rw [readFrom.eq_def]
  split <;> grind

/-- An array or an object that opens becomes the innermost frame. -/
theorem readFrom_frame {f : Frame} (h : readOpening input = some (.frame f, rest)) :
    readFrom frames none input = readFrom (f :: frames) none rest := by
  rw [readFrom.eq_def]
  split <;> grind

/-- The value in hand is the result when nothing is open and nothing follows. -/
theorem readFrom_end {v : Value} (h : dropSpace input = []) :
    readFrom [] (some v) input = some v := by
  rw [readFrom.eq_def]
  split <;> grind

/-- Behind a comma the next element is read. -/
theorem readFrom_element {before : List Value} {v : Value} (h : dropSpace input = ',' :: rest) :
    readFrom (.array before :: frames) (some v) input =
      readFrom (.array (v :: before) :: frames) none rest := by
  rw [readFrom.eq_def]
  split <;> grind

/-- A bracket closes an array. -/
theorem readFrom_bracket {before : List Value} {v : Value} (h : dropSpace input = ']' :: rest) :
    readFrom (.array before :: frames) (some v) input =
      readFrom frames (some (.array (v :: before).reverse)) rest := by
  rw [readFrom.eq_def]
  split <;> grind

/-- Behind a comma the next member is read. -/
theorem readFrom_member {before : List (Literal × Value)} {name next : Literal} {v : Value}
    {behind : List Char} (h : dropSpace input = ',' :: rest)
    (hname : readName rest = some (next, behind)) :
    readFrom (.object before name :: frames) (some v) input =
      readFrom (.object ((name, v) :: before) next :: frames) none behind := by
  rw [readFrom.eq_def]
  split <;> grind

/-- A brace closes an object. -/
theorem readFrom_brace {before : List (Literal × Value)} {name : Literal} {v : Value}
    (h : dropSpace input = '\x7d' :: rest) :
    readFrom (.object before name :: frames) (some v) input =
      readFrom frames (some (.object ((name, v) :: before).reverse)) rest := by
  rw [readFrom.eq_def]
  split <;> grind

end

/-! ## Spaces -/

/-- The start of a line consists of spaces. -/
theorem dropSpace_newLine (level : Nat) (rest : List Char) :
    dropSpace ((newLine level).toList ++ rest) = dropSpace rest := by
  have hspaces : ∀ n : Nat, dropSpace (List.replicate n ' ' ++ rest) = dropSpace rest := by
    intro n
    induction n with
    | zero => rfl
    | succ n ih => exact ih
  rw [newLine, String.toList_ofList, List.cons_append]
  exact hspaces _

/-- Spaces in front of a value do not matter. -/
theorem readFrom_of_dropSpace {frames : List Frame} {input input' : List Char}
    (h : dropSpace input = dropSpace input') :
    readFrom frames none input = readFrom frames none input' := by
  have hopening : readOpening input = readOpening input' := by
    simp only [readOpening, h]
  cases hread : readOpening input' with
  | none =>
    rw [readFrom.eq_def, readFrom.eq_def frames none input']
    split <;> split <;> grind
  | some opening =>
    obtain ⟨v | f, rest⟩ := opening
    · rw [readFrom_value hread, readFrom_value (hopening.trans hread)]
    · rw [readFrom_frame hread, readFrom_frame (hopening.trans hread)]

/-- There is no space in front of a literal. -/
theorem dropSpace_quote (s : String) (rest : List Char) :
    dropSpace ((quote s).toList ++ rest) = (quote s).toList ++ rest := by
  rw [toList_quote_append]
  rfl

/-- A name that is written is read behind spaces, with the colon. -/
theorem readName_quote {input rest : List Char} (s : String)
    (h : dropSpace input = (quote s).toList ++ (": ".toList ++ rest)) :
    readName input = some (some s, ' ' :: rest) := by
  rw [toList_quote_append] at h
  have hcolon : dropSpace (": ".toList ++ rest) = ':' :: ' ' :: rest := rfl
  simp only [readName, h, readLiteral_flatMap, hcolon]

/-! ## Values -/

namespace Value

mutual

/-- Whether a value is textual: made of texts and natural numbers. -/
def isTextual : Value → Bool
  | .null | .bool _ => true
  | .number n => n == .ofNat (ofDigits n.whole)
  | .string content => content.isSome
  | .array elements => areTextual elements
  | .object members => membersAreTextual members
termination_by structural v => v

/-- Whether every element is textual. -/
def areTextual : List Value → Bool
  | [] => true
  | v :: vs => v.isTextual && areTextual vs
termination_by structural vs => vs

/-- Whether every member is textual. -/
def membersAreTextual : List (Literal × Value) → Bool
  | [] => true
  | (name, v) :: ms => name.isSome && v.isTextual && membersAreTextual ms
termination_by structural ms => ms

end

/-- A number that is natural is written as one. -/
theorem exists_eq_ofNat {n : Numeral} (h : (Value.number n).isTextual = true) :
    ∃ k, n = .ofNat k :=
  ⟨_, eq_of_beq h⟩

/-- A natural number is one. -/
@[simp] theorem isTextual_ofNat (n : Nat) : (Value.ofNat n).isTextual = true := by
  have hnumber : ofDigits (Numeral.ofNat n).whole = n := ofDigits_toDigits n
  rw [ofNat, isTextual, hnumber]
  exact beq_self_eq_true _

/-- Members with textual values are textual. -/
theorem membersAreTextual_map (members : List (String × Value))
    (h : ∀ m ∈ members, m.2.isTextual = true) :
    Value.membersAreTextual (members.map fun (name, value) => (some name, value)) = true := by
  induction members with
  | nil => rfl
  | cons m members ih =>
    rw [List.forall_mem_cons] at h
    rw [List.map_cons, Value.membersAreTextual, h.1, ih h.2]
    rfl

/-- An array of textual values is textual. -/
theorem areTextual_map {α : Type} {encode : α → Value} (l : List α)
    (h : ∀ x, (encode x).isTextual = true) : Value.areTextual (l.map encode) = true := by
  induction l with
  | nil => rfl
  | cons x l ih =>
    rw [List.map_cons, Value.areTextual, h x, ih]
    rfl

/-- No value begins with a space or with a closing bracket. -/
theorem exists_toList_prettyAt (level : Nat) {v : Value} (h : v.isTextual = true) :
    ∃ c cs, (v.prettyAt level).toList = c :: cs ∧ isSpace c = false ∧ c ≠ ']' := by
  cases v with
  | null => exact ⟨'n', "ull".toList, by simp [prettyAt], by decide, by decide⟩
  | bool b =>
    cases b with
    | true => exact ⟨'t', "rue".toList, by simp [prettyAt], by decide, by decide⟩
    | false => exact ⟨'f', "alse".toList, by simp [prettyAt], by decide, by decide⟩
  | number n =>
    obtain ⟨k, rfl⟩ := exists_eq_ofNat h
    obtain ⟨c, cs, hlist, hc⟩ := exists_toDigits_eq_cons k
    rw [prettyAt, toList_print_ofNat]
    refine ⟨c, cs, hlist, isSpace_eq_false_of_isDigit hc, ?_⟩
    rintro rfl
    exact absurd hc (by decide)
  | string content =>
    cases content with
    | none => cases h
    | some s => exact ⟨'"', _, by simp [prettyAt, Literal.print, quote]; rfl, by decide, by decide⟩
  | array elements =>
    cases elements with
    | nil => exact ⟨'[', "]".toList, by simp [prettyAt], by decide, by decide⟩
    | cons v vs => exact ⟨'[', _, by simp [prettyAt]; rfl, by decide, by decide⟩
  | object members =>
    cases members with
    | nil => exact ⟨'\x7b', "\x7d".toList, by simp [prettyAt], by decide, by decide⟩
    | cons m ms => exact ⟨'\x7b', _, by simp [prettyAt]; rfl, by decide, by decide⟩

end Value

/-- There is no space in front of a value. -/
theorem dropSpace_prettyAt (level : Nat) {v : Value} (h : v.isTextual = true) (rest : List Char) :
    dropSpace ((v.prettyAt level).toList ++ rest) = (v.prettyAt level).toList ++ rest := by
  obtain ⟨c, cs, htext, hspace, -⟩ := v.exists_toList_prettyAt level h
  rw [htext, List.cons_append, dropSpace, List.dropWhile_cons_of_neg (by simp [hspace])]

/-- An array opens in front of its first element. -/
theorem readOpening_array {level : Nat} {v : Value} (h : v.isTextual = true)
    {input rest : List Char}
    (hinput : dropSpace input = (v.prettyAt level).toList ++ rest) :
    readOpening ('[' :: input) =
      some (.frame (.array []), (v.prettyAt level).toList ++ rest) := by
  obtain ⟨c, cs, htext, -, hbracket⟩ := v.exists_toList_prettyAt level h
  have hopen : dropSpace ('[' :: input) = '[' :: input := rfl
  rw [htext, List.cons_append] at hinput ⊢
  simp only [readOpening, hopen, hinput]
  split
  · rename_i heq
    exact absurd (List.cons.inj heq).1 hbracket
  · rfl

/-- An object opens in front of the value of its first member. -/
theorem readOpening_object {input rest : List Char} (name : String)
    (h : dropSpace input = (quote name).toList ++ (": ".toList ++ rest)) :
    readOpening ('\x7b' :: input) = some (.frame (.object [] (some name)), ' ' :: rest) := by
  have hopen : dropSpace ('\x7b' :: input) = '\x7b' :: input := rfl
  have hname : readName (dropSpace input) = some (some name, ' ' :: rest) :=
    readName_quote name (by rw [h, dropSpace_quote])
  rw [h, toList_quote_append] at hname
  rw [toList_quote_append] at h
  simp only [readOpening, hopen, h]
  split
  · rename_i heq
    exact absurd (List.cons.inj heq).1 (by decide)
  · rw [hname]

/-- A number ends at the end of a line. -/
theorem endsNumber_newLine (level : Nat) (rest : List Char) :
    endsNumber ((newLine level).toList ++ rest) = true := by
  rw [newLine, String.toList_ofList]
  rfl

/-- A number ends in front of the elements that follow it. -/
theorem endsNumber_prettyElements (level outer : Nat) (vs : List Value) (rest : List Char) :
    endsNumber ((Value.prettyElements level vs).toList ++ ((newLine outer).toList ++ rest)) =
      true := by
  cases vs with
  | nil => exact endsNumber_newLine outer rest
  | cons v vs => simp +decide [Value.prettyElements, endsNumber]

/-- A number ends in front of the members that follow it. -/
theorem endsNumber_prettyMembers (level outer : Nat) (ms : List (Literal × Value))
    (rest : List Char) :
    endsNumber ((Value.prettyMembers level ms).toList ++ ((newLine outer).toList ++ rest)) =
      true := by
  cases ms with
  | nil => exact endsNumber_newLine outer rest
  | cons m ms => simp +decide [Value.prettyMembers, endsNumber]

/-- A natural number opens as a value. -/
theorem readOpening_ofNat (n : Nat) {rest : List Char} (h : endsNumber rest = true) :
    readOpening ((Numeral.ofNat n).print.toList ++ rest) =
      some (.value (.number (.ofNat n)), rest) := by
  have hread := readNumeral_ofNat n h
  obtain ⟨c, cs, hlist, hc⟩ := exists_toDigits_eq_cons n
  rw [toList_print_ofNat, hlist] at hread ⊢
  have hdrop : dropSpace (c :: cs ++ rest) = c :: cs ++ rest :=
    List.dropWhile_cons_of_neg (by simp [isSpace_eq_false_of_isDigit hc])
  -- no other value begins with a digit
  unfold readOpening
  rw [hdrop]
  split
  case h_7 => rw [hread]
  all_goals
    rename_i heq
    rw [(List.cons.inj heq).1] at hc
    exact absurd hc (by decide)

mutual

/-- A value is read to its end. -/
theorem readFrom_prettyAt (level : Nat) (frames : List Frame) (rest : List Char)
    (hrest : endsNumber rest = true) :
    ∀ v : Value, v.isTextual = true →
      readFrom frames none ((v.prettyAt level).toList ++ rest) = readFrom frames (some v) rest
  | .null, _ => readFrom_value (by simp [Value.prettyAt, readOpening, dropSpace, isSpace])
  | .bool true, _ => readFrom_value (by simp [Value.prettyAt, readOpening, dropSpace, isSpace])
  | .bool false, _ => readFrom_value (by simp [Value.prettyAt, readOpening, dropSpace, isSpace])
  | .number n, h => by
    obtain ⟨k, rfl⟩ := Value.exists_eq_ofNat h
    refine readFrom_value ?_
    rw [Value.prettyAt, readOpening_ofNat k hrest]
  | .string none, h => nomatch h
  | .string (some s), _ => by
    refine readFrom_value ?_
    rw [Value.prettyAt, Literal.print, toList_quote_append]
    have hquote : ∀ input, dropSpace ('"' :: input) = '"' :: input := fun _ => rfl
    simp only [readOpening, hquote, readLiteral_flatMap]
  | .array [], _ => readFrom_value (by simp [Value.prettyAt, readOpening, dropSpace, isSpace])
  | .array (v :: vs), h => by
    obtain ⟨hv, hvs⟩ : v.isTextual = true ∧ Value.areTextual vs = true :=
      Bool.and_eq_true_iff.1 h
    let behind := (Value.prettyElements (level + 1) vs).toList ++
      ((newLine level).toList ++ ']' :: rest)
    have hinput : dropSpace ((newLine (level + 1)).toList ++
        ((v.prettyAt (level + 1)).toList ++ behind)) = (v.prettyAt (level + 1)).toList ++ behind :=
      (dropSpace_newLine _ _).trans (dropSpace_prettyAt _ hv _)
    calc readFrom frames none ((Value.prettyAt level (.array (v :: vs))).toList ++ rest)
        = readFrom frames none ('[' :: ((newLine (level + 1)).toList ++
            ((v.prettyAt (level + 1)).toList ++ behind))) := by simp [Value.prettyAt, behind]
      _ = readFrom (.array [] :: frames) none ((v.prettyAt (level + 1)).toList ++ behind) :=
          readFrom_frame (readOpening_array hv hinput)
      _ = readFrom (.array [] :: frames) (some v) behind :=
          readFrom_prettyAt (level + 1) _ _ (endsNumber_prettyElements _ _ _ _) v hv
      _ = readFrom frames (some (.array (v :: vs))) rest :=
          readFrom_prettyElements (level + 1) level frames [] v rest vs hvs
  | .object [], _ => readFrom_value (by simp [Value.prettyAt, readOpening, dropSpace, isSpace])
  | .object ((none, v) :: ms), h => nomatch h
  | .object ((some name, v) :: ms), h => by
    obtain ⟨hv, hms⟩ : v.isTextual = true ∧ Value.membersAreTextual ms = true :=
      Bool.and_eq_true_iff.1 h
    let behind := (Value.prettyMembers (level + 1) ms).toList ++
      ((newLine level).toList ++ '\x7d' :: rest)
    let first := (v.prettyAt (level + 1)).toList ++ behind
    have hname : dropSpace ((newLine (level + 1)).toList ++
        ((quote name).toList ++ (": ".toList ++ first))) =
          (quote name).toList ++ (": ".toList ++ first) :=
      (dropSpace_newLine _ _).trans (dropSpace_quote _ _)
    calc readFrom frames none
          ((Value.prettyAt level (.object ((some name, v) :: ms))).toList ++ rest)
        = readFrom frames none ('\x7b' :: ((newLine (level + 1)).toList ++
            ((quote name).toList ++ (": ".toList ++ first)))) := by
          simp [Value.prettyAt, Literal.print, first, behind]
      _ = readFrom (.object [] (some name) :: frames) none (' ' :: first) :=
          readFrom_frame (readOpening_object name hname)
      _ = readFrom (.object [] (some name) :: frames) none first := readFrom_of_dropSpace rfl
      _ = readFrom (.object [] (some name) :: frames) (some v) behind :=
          readFrom_prettyAt (level + 1) _ _ (endsNumber_prettyMembers _ _ _ _) v hv
      _ = readFrom frames (some (.object ((some name, v) :: ms))) rest :=
          readFrom_prettyMembers (level + 1) level frames [] (some name) v rest ms hms
termination_by structural v => v

/-- The elements that are still to come are put behind those that have been read. -/
theorem readFrom_prettyElements (level outer : Nat) (frames : List Frame) (before : List Value)
    (v : Value) (rest : List Char) :
    ∀ vs : List Value, Value.areTextual vs = true →
      readFrom (.array before :: frames) (some v)
          ((Value.prettyElements level vs).toList ++ ((newLine outer).toList ++ ']' :: rest)) =
        readFrom frames (some (.array (before.reverse ++ v :: vs))) rest
  | [], _ => by
    have hclose : dropSpace ((newLine outer).toList ++ ']' :: rest) = ']' :: rest :=
      dropSpace_newLine outer _
    rw [Value.prettyElements, String.toList_empty, List.nil_append, readFrom_bracket hclose,
      List.reverse_cons]
  | w :: ws, h => by
    obtain ⟨hw, hws⟩ : w.isTextual = true ∧ Value.areTextual ws = true :=
      Bool.and_eq_true_iff.1 h
    let behind := (Value.prettyElements level ws).toList ++
      ((newLine outer).toList ++ ']' :: rest)
    calc readFrom (.array before :: frames) (some v)
          ((Value.prettyElements level (w :: ws)).toList ++ ((newLine outer).toList ++ ']' :: rest))
        = readFrom (.array before :: frames) (some v) (',' :: ((newLine level).toList ++
            ((w.prettyAt level).toList ++ behind))) := by simp [Value.prettyElements, behind]
      _ = readFrom (.array (v :: before) :: frames) none ((newLine level).toList ++
            ((w.prettyAt level).toList ++ behind)) := readFrom_element rfl
      _ = readFrom (.array (v :: before) :: frames) none ((w.prettyAt level).toList ++ behind) :=
          readFrom_of_dropSpace (dropSpace_newLine level _)
      _ = readFrom (.array (v :: before) :: frames) (some w) behind :=
          readFrom_prettyAt level _ _ (endsNumber_prettyElements _ _ _ _) w hw
      _ = readFrom frames (some (.array ((v :: before).reverse ++ w :: ws))) rest :=
          readFrom_prettyElements level outer frames (v :: before) w rest ws hws
      _ = readFrom frames (some (.array (before.reverse ++ v :: w :: ws))) rest := by simp
termination_by structural vs => vs

/-- The members that are still to come are put behind those that have been read. -/
theorem readFrom_prettyMembers (level outer : Nat) (frames : List Frame)
    (before : List (Literal × Value)) (name : Literal) (v : Value) (rest : List Char) :
    ∀ ms : List (Literal × Value), Value.membersAreTextual ms = true →
      readFrom (.object before name :: frames) (some v)
          ((Value.prettyMembers level ms).toList ++ ((newLine outer).toList ++ '\x7d' :: rest)) =
        readFrom frames (some (.object (before.reverse ++ (name, v) :: ms))) rest
  | [], _ => by
    have hclose : dropSpace ((newLine outer).toList ++ '\x7d' :: rest) = '\x7d' :: rest :=
      dropSpace_newLine outer _
    rw [Value.prettyMembers, String.toList_empty, List.nil_append, readFrom_brace hclose,
      List.reverse_cons]
  | (none, w) :: ms, h => nomatch h
  | (some next, w) :: ms, h => by
    obtain ⟨hw, hms⟩ : w.isTextual = true ∧ Value.membersAreTextual ms = true :=
      Bool.and_eq_true_iff.1 h
    let behind := (Value.prettyMembers level ms).toList ++
      ((newLine outer).toList ++ '\x7d' :: rest)
    let first := (w.prettyAt level).toList ++ behind
    have hname : dropSpace ((newLine level).toList ++
        ((quote next).toList ++ (": ".toList ++ first))) =
          (quote next).toList ++ (": ".toList ++ first) :=
      (dropSpace_newLine _ _).trans (dropSpace_quote _ _)
    calc readFrom (.object before name :: frames) (some v)
          ((Value.prettyMembers level ((some next, w) :: ms)).toList ++
            ((newLine outer).toList ++ '\x7d' :: rest))
        = readFrom (.object before name :: frames) (some v) (',' :: ((newLine level).toList ++
            ((quote next).toList ++ (": ".toList ++ first)))) := by
          simp [Value.prettyMembers, Literal.print, first, behind]
      _ = readFrom (.object ((name, v) :: before) (some next) :: frames) none (' ' :: first) :=
          readFrom_member rfl (readName_quote next hname)
      _ = readFrom (.object ((name, v) :: before) (some next) :: frames) none first :=
          readFrom_of_dropSpace rfl
      _ = readFrom (.object ((name, v) :: before) (some next) :: frames) (some w) behind :=
          readFrom_prettyAt level _ _ (endsNumber_prettyMembers _ _ _ _) w hw
      _ = readFrom frames (some (.object (((name, v) :: before).reverse ++ (some next, w) :: ms)))
            rest :=
          readFrom_prettyMembers level outer frames ((name, v) :: before) (some next) w rest ms hms
      _ = readFrom frames (some (.object (before.reverse ++ (name, v) :: (some next, w) :: ms)))
            rest := by simp
termination_by structural ms => ms

end

/-- A value that is made of texts and natural numbers is read back from what is written, with any
spaces behind it. -/
theorem Value.parse_pretty_append {v : Value} (h : v.isTextual = true) {blank : String}
    (hblank : ∀ c ∈ blank.toList, isSpace c = true) :
    Value.parse (v.pretty ++ blank) = some v := by
  have hends : endsNumber blank.toList = true := by
    cases hlist : blank.toList with
    | nil => rfl
    | cons c cs =>
      have hc : isSpace c = true := hblank c (by rw [hlist]; exact List.mem_cons_self)
      simp only [isSpace, Bool.or_eq_true, beq_iff_eq] at hc
      rcases hc with ((rfl | rfl) | rfl) | rfl <;> rfl
  have hread := readFrom_prettyAt 0 [] blank.toList hends v h
  rw [readFrom_end (List.dropWhile_eq_nil_iff.2 hblank)] at hread
  rw [Value.parse, String.toList_append]
  exact hread

/-- A value that is made of texts and natural numbers is read back from what is written. -/
theorem Value.parse_pretty {v : Value} (h : v.isTextual = true) :
    Value.parse v.pretty = some v := by
  have hblank : ∀ c ∈ "".toList, isSpace c = true := List.forall_mem_nil _
  have hread := Value.parse_pretty_append h hblank
  rwa [String.append_empty] at hread

end CircuitGraph.Json
