import CircuitGraph.Text.Layout
import CircuitGraph.Text.Word
import Mathlib.Data.List.DropRight

/-!
# Which texts write a number

Numbers are read from texts that people have typed, after the blanks around them have been taken
off. `Writes` says in one go which texts these are: ASCII digits with or without a plus sign in
front of them, between blanks of any kind. Such a text is read whenever the number has 64 bits, and
no other text is (`readWord?_trim_eq_some_iff`).
-/

namespace CircuitGraph.Text

/-- A text writes a number: digits, behind at most one plus sign, between blanks. -/
def Writes (text : String) (n : Nat) : Prop :=
  ∃ before sign digits after : List Char,
    text.toList = before ++ (sign ++ digits) ++ after ∧
      (∀ c ∈ before ++ after, isBlank c = true) ∧ (sign = [] ∨ sign = ['+']) ∧
      digits ≠ [] ∧ (∀ c ∈ digits, c.isDigit = true) ∧ n = ofDigits (digits.map digitValue)

/-! ## Blanks around a text -/

/-- A text is what is left of it, with blanks on both sides. -/
theorem exists_blanks_trim (text : String) :
    ∃ before after : List Char, text.toList = before ++ (trim text).toList ++ after ∧
      ∀ c ∈ before ++ after, isBlank c = true := by
  have htrim : (trim text).toList = (text.toList.dropWhile isBlank).rdropWhile isBlank :=
    String.toList_ofList
  refine ⟨text.toList.takeWhile isBlank, (text.toList.dropWhile isBlank).rtakeWhile isBlank, ?_, ?_⟩
  · rw [htrim, List.append_assoc, List.rdropWhile_append_rtakeWhile,
      List.takeWhile_append_dropWhile]
  · intro c hc
    rcases List.mem_append.1 hc with hc | hc
    · exact List.mem_takeWhile_imp hc
    · exact List.mem_rtakeWhile_imp hc

/-- Blanks are taken off up to the first character on each side that is none. -/
theorem trim_eq_of_blanks {text : String} {before core after : List Char}
    (h : text.toList = before ++ core ++ after) (hblank : ∀ c ∈ before ++ after, isBlank c = true)
    (hcore : ∀ c ∈ core, isBlank c = false) : trim text = String.ofList core := by
  rw [List.forall_mem_append] at hblank
  have hafter : ∀ c ∈ after.reverse, isBlank c = true := fun c hc =>
    hblank.2 c (List.mem_reverse.1 hc)
  have hkeep : ∀ cs : List Char, (∀ c ∈ cs, isBlank c = false) → cs.dropWhile isBlank = cs := by
    intro cs hcs
    cases cs with
    | nil => rfl
    | cons c cs => rw [List.dropWhile_cons_of_neg (by simp [hcs c List.mem_cons_self])]
  -- from the back, the blanks behind the core are met first
  have hback : (core ++ after).rdropWhile isBlank = core := by
    rw [List.rdropWhile, List.reverse_append, List.dropWhile_append_of_pos hafter,
      hkeep _ fun c hc => hcore c (List.mem_reverse.1 hc), List.reverse_reverse]
  have hfront : ((core ++ after).dropWhile isBlank).rdropWhile isBlank = core := by
    cases core with
    | nil =>
      rw [List.nil_append, List.dropWhile_eq_nil_iff.2 hblank.2]
      rfl
    | cons c core =>
      rw [List.cons_append, List.dropWhile_cons_of_neg (by simp [hcore c List.mem_cons_self])]
      exact hback
  change String.ofList ((text.toList.dropWhile isBlank).rdropWhile isBlank) = _
  rw [h, List.append_assoc, List.dropWhile_append_of_pos hblank.1, hfront]

/-- A digit is not blank. -/
theorem isBlank_eq_false_of_isDigit {c : Char} (h : c.isDigit = true) : isBlank c = false := by
  simp only [Char.isDigit, Bool.and_eq_true, decide_eq_true_eq, ge_iff_le, UInt32.le_iff_toNat_le]
    at h
  have hcode : 48 ≤ c.toNat ∧ c.toNat ≤ 57 := h
  simp only [isBlank, blankRanges, List.any_cons, List.any_nil, Bool.or_false, Bool.or_eq_false_iff,
    Bool.and_eq_false_iff, decide_eq_false_iff_not]
  omega

/-! ## Numbers -/

/-- The digits of a number are digits. -/
theorem isDigit_of_mem_toDigits {n : Nat} {c : Char} (h : c ∈ Nat.toDigits 10 n) :
    c.isDigit = true :=
  Nat.isDigit_of_mem_toDigits (by decide) (by decide) h

/-- A number is written with at least one digit. -/
theorem exists_toDigits_eq_cons (n : Nat) :
    ∃ c cs, Nat.toDigits 10 n = c :: cs ∧ c.isDigit = true := by
  obtain ⟨c, cs, hlist⟩ := List.exists_cons_of_ne_nil (Nat.toDigits_ne_nil (b := 10) (n := n))
  refine ⟨c, cs, hlist, isDigit_of_mem_toDigits (n := n) ?_⟩
  rw [hlist]
  exact List.mem_cons_self

/-- The digits of a number write it. -/
theorem ofDigits_toDigits (n : Nat) : ofDigits ((Nat.toDigits 10 n).map digitValue) = n := by
  rw [ofDigits, List.foldl_map]
  exact Nat.ofDigitChars_ten_toDigits

/-- Digits are read as the number that they write, when it has 64 bits. -/
theorem wordOfDigits?_eq_some_iff {cs : List Char} {n : Nat} :
    wordOfDigits? cs = some n ↔
      cs ≠ [] ∧ (∀ c ∈ cs, c.isDigit = true) ∧ n = ofDigits (cs.map digitValue) ∧ n ≤ maxWord := by
  rw [wordOfDigits?, ← List.all_eq_true]
  dsimp only
  split_ifs with hdigits hword
  · simp only [Option.some.injEq]
    constructor
    · rintro rfl
      exact ⟨hdigits.1, hdigits.2, rfl, hword⟩
    · exact fun h => h.2.2.1.symm
  · simp only [false_iff]
    rintro ⟨-, -, rfl, hle⟩
    exact hword hle
  · simp only [false_iff]
    exact fun h => hdigits ⟨h.1, h.2.1⟩

/-- A text is read as the number that its digits write, behind the plus sign if there is one. -/
theorem readWord?_eq_some_iff {text : String} {n : Nat} :
    readWord? text = some n ↔
      ∃ sign digits : List Char, text.toList = sign ++ digits ∧ (sign = [] ∨ sign = ['+']) ∧
        wordOfDigits? digits = some n := by
  unfold readWord?
  constructor
  · intro h
    split at h
    · rename_i digits htext
      exact ⟨['+'], digits, htext, .inr rfl, h⟩
    · exact ⟨[], _, rfl, .inl rfl, h⟩
  · rintro ⟨sign, digits, htext, rfl | rfl, hdigits⟩
    · rw [htext, List.nil_append]
      split
      · -- a plus sign is no digit
        rename_i rest
        have hplus := (wordOfDigits?_eq_some_iff.1 hdigits).2.1 '+' List.mem_cons_self
        exact absurd hplus (by decide)
      · exact hdigits
    · rw [htext]
      exact hdigits

/-- A text is read, once the blanks around it have been taken off, when it writes a number of 64
bits. -/
theorem readWord?_trim_eq_some_iff {text : String} {n : Nat} :
    readWord? (trim text) = some n ↔ Writes text n ∧ n ≤ maxWord := by
  rw [readWord?_eq_some_iff]
  constructor
  · rintro ⟨sign, digits, hcore, hsign, hdigits⟩
    obtain ⟨hne, hall, hn, hle⟩ := wordOfDigits?_eq_some_iff.1 hdigits
    obtain ⟨before, after, htext, hblank⟩ := exists_blanks_trim text
    rw [hcore] at htext
    exact ⟨⟨before, sign, digits, after, htext, hblank, hsign, hne, hall, hn⟩, hle⟩
  · rintro ⟨⟨before, sign, digits, after, htext, hblank, hsign, hne, hall, hn⟩, hle⟩
    have hcore : ∀ c ∈ sign ++ digits, isBlank c = false := by
      refine List.forall_mem_append.2 ⟨?_, fun c hc => isBlank_eq_false_of_isDigit (hall c hc)⟩
      rcases hsign with rfl | rfl
      · exact List.forall_mem_nil _
      · exact List.forall_mem_singleton.2 (by decide)
    refine ⟨sign, digits, ?_, hsign, wordOfDigits?_eq_some_iff.2 ⟨hne, hall, hn, hle⟩⟩
    rw [trim_eq_of_blanks htext hblank hcore, String.toList_ofList]

end CircuitGraph.Text
