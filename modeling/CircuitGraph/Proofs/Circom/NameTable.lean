import CircuitGraph.Circom.NameTable
import CircuitGraph.Proofs.Text.Separator
import Mathlib.Data.Finset.Prod
import Mathlib.Data.List.Perm.Basic

/-!
# Names that are claimed are free

The candidates for a name are distinct, since the counter shows no number twice, and a taken name
spoils at most one of them for the name itself and one for each suffix. The search tries one
candidate more than can be spoilt in this way, so the candidate at which it stops is free
(`isFree_fresh`), and it is the first free one.

`NameTable.Claims` is what one or several allocations do to a table, and composes: the claimed names
are distinct, none of them was taken, and all of them are taken afterwards.
-/

namespace CircuitGraph.Circom

/-- The counter does not show a number twice. -/
theorem counterAt_injective : Function.Injective counterAt := by
  intro j k h
  unfold counterAt UInt32.size at h
  split_ifs at h <;> omega

/-- Before it is full, the counter shows the tries and two more. -/
theorem counterAt_of_lt {k : Nat} (h : k + 2 < 2 ^ 32) : counterAt k = k + 2 := by
  rw [counterAt, UInt32.size, if_pos (by omega), Nat.mod_eq_of_lt (by omega)]

/-- A base, and the names that the numbers of a counter make of it. -/
def counted (count : Nat → Nat) (base : String) : Nat → String
  | 0 => base
  | k + 1 => s!"{base}_{count k}"

/-- When the counter shows no number twice, no name is made twice. -/
theorem counted_injective {count : Nat → Nat} (h : Function.Injective count) (base : String) :
    Function.Injective (counted count base) := by
  have hlong : ∀ k, counted count base (k + 1) ≠ base := by
    intro k heq
    have hlength := congrArg String.length heq
    have hmark : (toString "_").length = 1 := rfl
    have hbase : (toString base).length = base.length := rfl
    simp only [counted, String.length_append, hmark, hbase] at hlength
    omega
  intro j k heq
  cases j with
  | zero =>
    cases k with
    | zero => rfl
    | succ k => exact absurd heq.symm (hlong k)
  | succ j =>
    cases k with
    | zero => exact absurd heq (hlong j)
    | succ k =>
      -- behind the common base stand the digits of the two numbers
      have hnumber : count j = count k := Text.repr_injective ((String.append_right_inj _).1 heq)
      rw [h hnumber]

/-- The candidates are the names that the numbers of the counter make of the base. -/
theorem candidate_eq_counted (base : String) : candidate base = counted counterAt base := by
  funext k
  cases k <;> rfl

/-- A family is its first name with each suffix behind it, the empty one included. -/
theorem family_eq_map (suffixes : List String) (name : String) :
    family suffixes name = ("" :: suffixes).map fun suffix => name ++ suffix := by
  simp [family]

/-- The names of a family are distinct when the suffixes are. -/
theorem nodup_family {suffixes : List String} (h : ("" :: suffixes).Nodup) (name : String) :
    (family suffixes name).Nodup := by
  rw [family_eq_map]
  exact h.map fun _ _ => (String.append_right_inj name).1

namespace NameTable

variable (t : NameTable) (suffixes : List String)

/-- A name is free when neither it nor a name derived from it is taken. -/
theorem isFree_iff {name : String} :
    t.isFree suffixes name = true ↔ ∀ n ∈ family suffixes name, n ∉ t.taken := by
  simp [isFree, List.all_eq_true]

/-- The search passes no free candidate, and it stops at a free one unless it has tried them all. -/
theorem firstFree_spec (base : String) (fuel k : Nat) :
    k ≤ t.firstFree suffixes base fuel k ∧
      (∀ j, k ≤ j → j < t.firstFree suffixes base fuel k →
        t.isFree suffixes (candidate base j) = false) ∧
      (t.isFree suffixes (candidate base (t.firstFree suffixes base fuel k)) = true ∨
        t.firstFree suffixes base fuel k = k + fuel) := by
  induction fuel generalizing k with
  | zero => exact ⟨Nat.le_refl k, fun j hle hlt => absurd hlt (by rw [firstFree]; omega), .inr rfl⟩
  | succ fuel ih =>
    rw [firstFree]
    split_ifs with hfree
    · exact ⟨Nat.le_refl k, fun j hle hlt => absurd hlt (by omega), .inl hfree⟩
    · obtain ⟨hle, hpassed, hstop⟩ := ih (k + 1)
      refine ⟨by omega, fun j hj hlt => ?_, hstop.imp_right (by omega)⟩
      rcases Nat.eq_or_lt_of_le hj with rfl | hj
      · exact Bool.eq_false_iff.2 hfree
      · exact hpassed j hj hlt

/-- The taken names do not spoil more names than there are pairs of one of them with a suffix. -/
theorem le_of_spoilt {names : Nat → String} (hnames : Function.Injective names) (n : Nat)
    (h : ∀ k < n, t.isFree suffixes (names k) = false) :
    n ≤ (suffixes.length + 1) * t.taken.length := by
  have hspoilt : ∀ k ∈ Finset.range n, ∃ p : String × String,
      p ∈ ("" :: suffixes).toFinset ×ˢ t.taken.toFinset ∧ p.2 = names k ++ p.1 := by
    intro k hk
    have hnot := mt (t.isFree_iff suffixes).2 (Bool.eq_false_iff.1 (h k (Finset.mem_range.1 hk)))
    -- the name is not free because of a suffix with which it is taken
    push Not at hnot
    obtain ⟨name, hname, htaken⟩ := hnot
    rw [family_eq_map] at hname
    obtain ⟨suffix, hsuffix, rfl⟩ := List.mem_map.1 hname
    exact ⟨(suffix, _), by simpa using ⟨by simpa using hsuffix, htaken⟩, rfl⟩
  choose! spoiler hmem heq using hspoilt
  -- a pair spoils one name only, for the suffix can be cut off
  have hinj : Set.InjOn spoiler (Finset.range n : Set Nat) := by
    intro j hj k hk hjk
    have happend : names j ++ (spoiler k).1 = names k ++ (spoiler k).1 := by
      rw [← heq k hk, ← hjk, ← heq j hj]
    exact hnames ((String.append_left_inj _).1 happend)
  have hcard := Finset.card_le_card_of_injOn spoiler hmem hinj
  rw [Finset.card_range, Finset.card_product] at hcard
  exact hcard.trans (Nat.mul_le_mul (List.toFinset_card_le _) (List.toFinset_card_le _))

/-- The name that is claimed is free together with the names derived from it. -/
theorem isFree_fresh (base : String) : t.isFree suffixes (t.fresh base suffixes) = true := by
  let fuel := (suffixes.length + 1) * t.taken.length
  obtain ⟨-, hpassed, hfree | hall⟩ := t.firstFree_spec suffixes base fuel 0
  · exact hfree
  · -- all candidates that were tried are spoilt, so one more would be too many
    by_contra hnot
    have hinj : Function.Injective (candidate base) :=
      candidate_eq_counted base ▸ counted_injective counterAt_injective base
    have hle := t.le_of_spoilt suffixes hinj (fuel + 1) fun k hk => by
      rcases Nat.lt_or_eq_of_le (Nat.le_of_lt_succ hk) with hk | rfl
      · exact hpassed k (Nat.zero_le k) (by omega)
      · have hlast := Bool.eq_false_iff.2 hnot
        rwa [fresh, hall, Nat.zero_add] at hlast
    omega

/-- The name that is claimed is the first candidate that is free. -/
theorem fresh_eq_candidate {base : String} {k : Nat}
    (hfree : t.isFree suffixes (candidate base k) = true)
    (hpassed : ∀ j < k, t.isFree suffixes (candidate base j) = false) :
    t.fresh base suffixes = candidate base k := by
  let fuel := (suffixes.length + 1) * t.taken.length
  obtain ⟨-, hbefore, -⟩ := t.firstFree_spec suffixes base fuel 0
  have hfirst : t.isFree suffixes (candidate base (t.firstFree suffixes base fuel 0)) = true :=
    t.isFree_fresh suffixes base
  rcases Nat.lt_trichotomy (t.firstFree suffixes base fuel 0) k with hlt | heq | hlt
  · exact absurd hfirst (Bool.eq_false_iff.1 (hpassed _ hlt))
  · exact congrArg (candidate base) heq
  · exact absurd hfree (Bool.eq_false_iff.1 (hbefore k (Nat.zero_le k) hlt))

end NameTable

/-- What allocations do to a table: the names are claimed. -/
structure NameTable.Claims (t : NameTable) (names : List String) (t' : NameTable) : Prop where
  /-- The names are taken afterwards, and no others are besides those that were. -/
  taken_perm : t'.taken.Perm (names ++ t.taken)
  /-- The names are distinct. -/
  nodup : names.Nodup
  /-- None of the names was taken. -/
  free : ∀ n ∈ names, n ∉ t.taken

namespace NameTable

variable {t t' t'' : NameTable} {names names' : List String}

/-- Claiming nothing leaves the table as it is. -/
theorem Claims.nil (t : NameTable) : t.Claims [] t where
  taken_perm := .refl _
  nodup := .nil
  free _ h := by cases h

/-- What is taken after a claim was taken or has been claimed. -/
theorem Claims.mem_taken (h : t.Claims names t') {n : String} :
    n ∈ t'.taken ↔ n ∈ names ∨ n ∈ t.taken := by
  rw [h.taken_perm.mem_iff, List.mem_append]

/-- Two claims, one after the other, are one claim of both lists of names. -/
theorem Claims.append (h : t.Claims names t') (h' : t'.Claims names' t'') :
    t.Claims (names ++ names') t'' where
  taken_perm := by
    refine h'.taken_perm.trans ?_
    -- the later names are in front of the earlier ones
    refine (h.taken_perm.append_left names').trans ?_
    rw [← List.append_assoc]
    exact List.perm_append_comm.append_right _
  nodup := by
    refine List.nodup_append'.2 ⟨h.nodup, h'.nodup, fun n hn hn' => ?_⟩
    exact h'.free n hn' (h.mem_taken.2 (.inl hn))
  free n hn := by
    rcases List.mem_append.1 hn with hn | hn
    · exact h.free n hn
    · exact fun htaken => h'.free n hn (h.mem_taken.2 (.inr htaken))

/-- The order in which names are listed does not matter for their being claimed. -/
theorem Claims.perm (h : t.Claims names t') (hperm : names.Perm names') : t.Claims names' t' where
  taken_perm := h.taken_perm.trans (hperm.append_right _)
  nodup := hperm.nodup h.nodup
  free n hn := h.free n (hperm.mem_iff.2 hn)

/-- An allocation claims the family of its name. -/
theorem claims_allocate (t : NameTable) (base : String) {suffixes : List String}
    (h : ("" :: suffixes).Nodup) :
    t.Claims (family suffixes (t.allocate base suffixes).1) (t.allocate base suffixes).2 where
  taken_perm := .refl _
  nodup := nodup_family h _
  free := (t.isFree_iff suffixes).1 (t.isFree_fresh suffixes base)

end NameTable

end CircuitGraph.Circom
