import CircuitGraph.Config.Basic
import Mathlib.Tactic.SplitIfs

/-!
# Accepted configurations

`Config.check` looks at one setting after the other. A configuration that it accepts keeps the bound
of every one of them.
-/

namespace CircuitGraph

/-- What an accepted configuration keeps. -/
structure Config.Accepted (config : Config) : Prop where
  /-- The template name is an identifier. -/
  template : isIdentifier config.templateName = true
  /-- The version is made of numbers between dots. -/
  version : isDottedDigits config.circomVersion.toList = true
  /-- The comparators have a bit, and they fit into the field. -/
  bits : 1 ≤ config.comparatorBits ∧ config.comparatorBits ≤ maxComparatorBits
  /-- A hash may take a value, but no more than there are templates for. -/
  hashInputs : 1 ≤ config.maxHashInputs ∧ config.maxHashInputs ≤ Gadget.maxHashInputs
  /-- A Merkle proof may have a level, and its depth is limited. -/
  merkleDepth : 1 ≤ config.maxMerkleDepth ∧ config.maxMerkleDepth ≤ maxMerkleDepthLimit

/-- The check accepts a configuration when all of its settings are in bounds. -/
theorem Config.accepted_of_check {config : Config} (h : config.check = .ok ()) :
    config.Accepted := by
  unfold Config.check at h
  split_ifs at h with htemplate hversion hbits hhash hdepth
  simp only [Bool.not_eq_true', Bool.not_eq_false] at htemplate hversion
  exact ⟨htemplate, hversion, hbits, hhash, hdepth⟩

/-! ## Versions -/

/-- Numbers between dots are digits and dots. -/
theorem isDigit_of_mem_isDottedDigits {cs : List Char} (h : isDottedDigits cs = true) {c : Char}
    (hc : c ∈ cs) : c.isDigit = true ∨ c = '.' := by
  fun_induction isDottedDigits cs with
  | case1 => cases hc
  | case2 d =>
    rw [List.mem_singleton.1 hc]
    exact .inl h
  | case3 d cs ih =>
    rw [Bool.and_eq_true] at h
    rcases List.mem_cons.1 hc with rfl | hc
    · exact .inl h.1
    · rcases List.mem_cons.1 hc with rfl | hc
      · exact .inr rfl
      · exact ih h.2 hc
  | case4 d cs _ _ ih =>
    rw [Bool.and_eq_true] at h
    rcases List.mem_cons.1 hc with rfl | hc
    · exact .inl h.1
    · exact ih h.2 hc

/-- Numbers between dots, taken apart at the dots. -/
theorem exists_intercalate_of_isDottedDigits {cs : List Char} (h : isDottedDigits cs = true) :
    ∃ parts : List (List Char), parts ≠ [] ∧
      (∀ part ∈ parts, part ≠ [] ∧ ∀ c ∈ part, c.isDigit = true) ∧
      cs = ['.'].intercalate parts := by
  fun_induction isDottedDigits cs with
  | case1 => cases h
  | case2 d => exact ⟨[[d]], by simp, by simpa using h, by simp⟩
  | case3 d cs ih =>
    rw [Bool.and_eq_true] at h
    obtain ⟨parts, hparts, hdigits, rfl⟩ := ih h.2
    -- a number of one digit stands in front of the dot
    refine ⟨[d] :: parts, by simp, List.forall_mem_cons.2 ⟨by simp [h.1], hdigits⟩, ?_⟩
    obtain ⟨part, rest, rfl⟩ := List.exists_cons_of_ne_nil hparts
    simp [List.intercalate_cons_cons]
  | case4 d cs _ _ ih =>
    rw [Bool.and_eq_true] at h
    obtain ⟨parts, hparts, hdigits, rfl⟩ := ih h.2
    -- the digit belongs to the number that follows
    obtain ⟨part, rest, rfl⟩ := List.exists_cons_of_ne_nil hparts
    rw [List.forall_mem_cons] at hdigits
    refine ⟨(d :: part) :: rest, by simp, List.forall_mem_cons.2 ⟨⟨by simp, ?_⟩, hdigits.2⟩, ?_⟩
    · exact List.forall_mem_cons.2 ⟨h.1, hdigits.1.2⟩
    · cases rest with
      | nil => simp
      | cons next rest => simp [List.intercalate_cons_cons]

/-- Whether a text is a number: digits, at least one of them. -/
def isDigits (s : String) : Bool := !s.toList.isEmpty && s.toList.all Char.isDigit

/-- A text of numbers between dots is made of texts of numbers. -/
theorem exists_parts_of_isDottedDigits {s : String} (h : isDottedDigits s.toList = true) :
    ∃ parts : List String, parts ≠ [] ∧ (∀ part ∈ parts, isDigits part = true) ∧
      s = ".".intercalate parts := by
  obtain ⟨parts, hparts, hdigits, hs⟩ := exists_intercalate_of_isDottedDigits h
  refine ⟨parts.map String.ofList, by simpa using hparts, ?_, ?_⟩
  · intro part hpart
    obtain ⟨chars, hchars, rfl⟩ := List.mem_map.1 hpart
    simpa [isDigits] using hdigits chars hchars
  · have htexts : (parts.map String.ofList).map String.toList = parts := by
      rw [List.map_map]
      exact (List.map_congr_left fun chars _ => String.toList_ofList).trans (List.map_id _)
    rw [← String.toList_inj, String.toList_intercalate, htexts, hs]
    rfl

end CircuitGraph
