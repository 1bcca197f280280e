import CircuitGraph.Circom.Identifier
import CircuitGraph.Circom.NameTable
import CircuitGraph.Config.Basic
import Mathlib.Tactic.SplitIfs

/-!
# Names are identifiers

Whatever a label or an id is, what is made of it is an identifier, and so is every candidate for it
and every name derived from a candidate: the numbers and the suffixes consist of characters that an
identifier may go on with.
-/

namespace CircuitGraph.Circom

/-- A character that an identifier may go on with. -/
def IsWordChar (c : Char) : Prop := c.isAlphanum = true ∨ c = '_'

instance : DecidablePred IsWordChar := fun c =>
  inferInstanceAs (Decidable (c.isAlphanum = true ∨ c = '_'))

/-- An identifier has a letter or an underscore first. -/
theorem isIdentifier_iff {s : String} :
    isIdentifier s = true ↔
      ∃ c cs, s.toList = c :: cs ∧ (c.isAlpha = true ∨ c = '_') ∧ ∀ d ∈ cs, IsWordChar d := by
  unfold isIdentifier IsWordChar
  cases s.toList with
  | nil => simp
  | cons c cs =>
    simp only [Bool.and_eq_true, Bool.or_eq_true, beq_iff_eq, List.all_eq_true, List.cons.injEq]
    constructor
    · exact fun h => ⟨c, cs, ⟨rfl, rfl⟩, h⟩
    · rintro ⟨_, _, ⟨rfl, rfl⟩, h⟩
      exact h

/-- The characters of an identifier make a word. -/
theorem isWordChar_of_isIdentifier {name : String} (h : isIdentifier name = true) :
    ∀ c ∈ name.toList, IsWordChar c := by
  obtain ⟨c, cs, hlist, hc, hcs⟩ := isIdentifier_iff.1 h
  rw [hlist, List.forall_mem_cons]
  exact ⟨hc.imp_left fun halpha => by rw [Char.isAlphanum, halpha, Bool.true_or], hcs⟩

/-- An identifier has a first character. -/
theorem exists_cons_of_isIdentifier {name : String} (h : isIdentifier name = true) :
    ∃ c cs, name.toList = c :: cs := by
  obtain ⟨c, cs, hlist, -⟩ := isIdentifier_iff.1 h
  exact ⟨c, cs, hlist⟩

/-- An identifier remains one when it goes on. -/
theorem isIdentifier_append {s t : String} (hs : isIdentifier s = true)
    (ht : ∀ c ∈ t.toList, IsWordChar c) : isIdentifier (s ++ t) = true := by
  obtain ⟨c, cs, hlist, hc, hcs⟩ := isIdentifier_iff.1 hs
  refine isIdentifier_iff.2 ⟨c, cs ++ t.toList, by simp [hlist], hc, fun d hd => ?_⟩
  rcases List.mem_append.1 hd with hd | hd
  · exact hcs d hd
  · exact ht d hd

/-- The digits of a number may stand in an identifier. -/
theorem isWordChar_of_mem_repr {n : Nat} {c : Char} (h : c ∈ n.repr.toList) : IsWordChar c := by
  rw [Nat.toList_repr] at h
  have hdigit : c.isDigit = true := Nat.isDigit_of_mem_toDigits (by decide) (by decide) h
  exact .inl (by simp [Char.isAlphanum, hdigit])

/-- The candidates for an identifier are identifiers. -/
theorem isIdentifier_candidate {base : String} (h : isIdentifier base = true) (k : Nat) :
    isIdentifier (candidate base k) = true := by
  cases k with
  | zero => exact h
  | succ k =>
    refine isIdentifier_append (isIdentifier_append h fun c hc => ?_) fun c hc => ?_
    · exact .inr (List.mem_singleton.1 hc)
    · exact isWordChar_of_mem_repr hc

/-- The name that is claimed for an identifier is one. -/
theorem isIdentifier_fresh {base : String} (h : isIdentifier base = true) (t : NameTable)
    (suffixes : List String) : isIdentifier (t.fresh base suffixes) = true :=
  isIdentifier_candidate h _

/-! ## Letters and digits -/

/-- The letters by their code points. -/
theorem isAlpha_iff {c : Char} :
    c.isAlpha = true ↔ (65 ≤ c.val.toNat ∧ c.val.toNat ≤ 90) ∨
      (97 ≤ c.val.toNat ∧ c.val.toNat ≤ 122) := by
  have hupper : c.isUpper = true ↔ 65 ≤ c.val.toNat ∧ c.val.toNat ≤ 90 := decide_eq_true_iff
  have hlower : c.isLower = true ↔ 97 ≤ c.val.toNat ∧ c.val.toNat ≤ 122 := by
    change (decide (97 ≤ c.val) && decide (c.val ≤ 122)) = true ↔ _
    rw [Bool.and_eq_true, decide_eq_true_iff, decide_eq_true_iff]
    rfl
  change (c.isUpper || c.isLower) = true ↔ _
  rw [Bool.or_eq_true, hupper, hlower]

/-- The digits by their code points. -/
theorem isDigit_iff {c : Char} :
    c.isDigit = true ↔ 48 ≤ c.val.toNat ∧ c.val.toNat ≤ 57 := by
  simp only [Char.isDigit, Bool.and_eq_true, decide_eq_true_eq, ge_iff_le,
    UInt32.le_iff_toNat_le, Char.reduceVal, UInt32.reduceToNat]

/-- The code point of a small letter. -/
theorem toNat_toLower (c : Char) :
    c.toLower.val.toNat =
      if 65 ≤ c.val.toNat ∧ c.val.toNat ≤ 90 then c.val.toNat + 32 else c.val.toNat := by
  change (dite (65 ≤ c.val.toNat ∧ c.val.toNat ≤ 90) _ _ : Char).val.toNat = _
  split_ifs with h
  · change (c.val + 32).toNat = c.val.toNat + 32
    rw [UInt32.toNat_add]
    simp only [UInt32.reduceToNat]
    omega
  · rfl

/-- The code point of a capital letter. -/
theorem toNat_toUpper (c : Char) :
    c.toUpper.val.toNat =
      if 97 ≤ c.val.toNat ∧ c.val.toNat ≤ 122 then c.val.toNat - 32 else c.val.toNat := by
  change (dite (97 ≤ c.val.toNat ∧ c.val.toNat ≤ 122) _ _ : Char).val.toNat = _
  split_ifs with h
  · change (c.val + 4294967264).toNat = c.val.toNat - 32
    rw [UInt32.toNat_add]
    simp only [UInt32.reduceToNat]
    omega
  · rfl

/-- A letter remains a letter when it is made small. -/
theorem isAlpha_toLower {c : Char} (h : c.isAlpha = true) : c.toLower.isAlpha = true := by
  rw [isAlpha_iff] at h ⊢
  rw [toNat_toLower]
  split_ifs <;> omega

/-- A digit remains a digit when it is made small. -/
theorem isDigit_toLower {c : Char} (h : c.isDigit = true) : c.toLower.isDigit = true := by
  rw [isDigit_iff] at h ⊢
  rw [toNat_toLower]
  split_ifs <;> omega

/-- A letter or digit remains one when it is made a capital. -/
theorem isAlphanum_toUpper {c : Char} (h : c.isAlphanum = true) :
    c.toUpper.isAlphanum = true := by
  rw [Char.isAlphanum, Bool.or_eq_true, isAlpha_iff, isDigit_iff] at h ⊢
  rw [toNat_toUpper]
  split_ifs <;> omega

/-- Only letters and digits are kept. -/
theorem isWordChar_of_mem_camel {gap : Bool} {cs : List Char} {c : Char} (h : c ∈ camel gap cs) :
    IsWordChar c := by
  induction cs generalizing gap with
  | nil => cases h
  | cons d ds ih =>
    rw [camel] at h
    split_ifs at h with hkeep hgap
    · rcases List.mem_cons.1 h with rfl | h
      · exact .inl (isAlphanum_toUpper hkeep)
      · exact ih h
    · rcases List.mem_cons.1 h with rfl | h
      · exact .inl hkeep
      · exact ih h
    · exact ih h

/-- What is made of a label is an identifier. -/
theorem isIdentifier_labelIdentifier (label : String) :
    isIdentifier (labelIdentifier label) = true := by
  unfold labelIdentifier
  split
  · rfl
  · rename_i c cs hword
    have hc : c.isAlphanum = true := by
      have hfirst := List.head?_dropWhile_not (fun c : Char => !c.isAlphanum) label.toList
      rw [hword] at hfirst
      simpa using hfirst
    rw [Char.isAlphanum, Bool.or_eq_true] at hc
    refine isIdentifier_iff.2 ?_
    dsimp only
    rw [String.toList_ofList]
    split_ifs with hdigit
    · refine ⟨'s', c.toLower :: camel false cs, rfl, .inl rfl, fun d hd => ?_⟩
      rcases List.mem_cons.1 hd with rfl | hd
      · exact .inl (by rw [Char.isAlphanum, isDigit_toLower hdigit, Bool.or_true])
      · exact isWordChar_of_mem_camel hd
    · refine ⟨c.toLower, camel false cs, rfl, .inl ?_, fun d hd => isWordChar_of_mem_camel hd⟩
      exact isAlpha_toLower (hc.resolve_right hdigit)

/-- What is made of an id is an identifier. -/
theorem isIdentifier_nodeIdentifier (id : String) : isIdentifier (nodeIdentifier id) = true := by
  unfold nodeIdentifier
  refine isIdentifier_iff.2 ⟨'n', _, String.toList_ofList, .inl rfl, fun d hd => ?_⟩
  rcases List.mem_cons.1 hd with rfl | hd
  · exact .inr rfl
  · obtain ⟨c, -, rfl⟩ := List.mem_map.1 hd
    split_ifs with hc
    · exact .inl hc
    · exact .inr rfl

end CircuitGraph.Circom
