import Mathlib.Data.List.Basic
import Mathlib.Tactic.SplitIfs

/-!
# Names that are put together

Ids and names are made of given parts, fixed words and numbers, and the question is whether the
parts can be told from the result. A number can (`repr_injective`). Two parts with a separator
between them can only if the separator does not occur in the parts. When it does, the same text
falls into two parts in another way as well: the separator is taken to be one that stands further
right, or further left. These are all the ways there are (`append_separator_eq_iff`).
-/

namespace CircuitGraph.Text

/-! ## Numbers -/

/-- Different numbers have different digits. -/
theorem toDigits_injective : Function.Injective (Nat.toDigits 10) := by
  intro j k h
  rw [← Nat.ofDigitChars_ten_toDigits (n := j), h, Nat.ofDigitChars_ten_toDigits]

/-- Different numbers have different texts. -/
theorem repr_injective : Function.Injective Nat.repr := by
  intro j k h
  have hdigits := congrArg String.toList h
  rw [Nat.toList_repr, Nat.toList_repr] at hdigits
  exact toDigits_injective hdigits

/-- A number is written without a zero in front, unless it is zero. -/
theorem head?_toDigits_ne {n : Nat} (h : 0 < n) : (Nat.toDigits 10 n).head? ≠ some '0' := by
  induction n using Nat.strongRecOn with
  | ind n ih =>
    rw [Nat.toDigits_eq_if (by decide)]
    split_ifs with hsmall
    · have hall : ∀ m < 10, 0 < m → Nat.digitChar m ≠ '0' := by decide
      simpa using hall n hsmall h
    · have hne : Nat.toDigits 10 (n / 10) ≠ [] := Nat.toDigits_ne_nil
      rw [List.head?_append_of_ne_nil _ hne]
      exact ih (n / 10) (by omega) (by omega)

/-! ## Separators -/

/-- Two lists are put together of the same parts, when in both of them the first part ends where a
property ends. -/
theorem eq_and_eq_of_append_eq {α : Type} {P : α → Prop} {a b a' b' : List α}
    (ha : ∀ x ∈ a, P x) (ha' : ∀ x ∈ a', P x) (hb : ∀ x ∈ b.head?, ¬ P x)
    (hb' : ∀ x ∈ b'.head?, ¬ P x) (h : a ++ b = a' ++ b') : a = a' ∧ b = b' := by
  rcases List.append_eq_append_iff.1 h with ⟨rest, rfl, rfl⟩ | ⟨rest, rfl, rfl⟩
  · cases rest with
    | nil => exact ⟨(List.append_nil a).symm, rfl⟩
    | cons x rest => exact absurd (ha' x (by simp)) (hb x rfl)
  · cases rest with
    | nil => exact ⟨List.append_nil a', rfl⟩
    | cons x rest => exact absurd (ha x (by simp)) (hb' x rfl)

/-- The parts around a separator are also `a'` and `b'`, with a separator further right. -/
def Slides (separator a b a' b' : String) : Prop :=
  ∃ between, a' = a ++ separator ++ between ∧ b = between ++ separator ++ b'

/-- Two lists with the same element between their parts are equal when the parts are, or when the
element of the one list stands further right than that of the other. -/
theorem append_cons_eq_append_cons_iff {α : Type} {a b a' b' : List α} {x : α} :
    a ++ x :: b = a' ++ x :: b' ↔ (a = a' ∧ b = b') ∨
      (∃ between, a' = a ++ x :: between ∧ b = between ++ x :: b') ∨
      ∃ between, a = a' ++ x :: between ∧ b' = between ++ x :: b := by
  constructor
  · intro h
    rcases List.append_eq_append_iff.1 h with ⟨rest, rfl, hb⟩ | ⟨rest, rfl, hb⟩
    · cases rest with
      | nil => exact .inl ⟨by simp, (List.cons.inj hb).2⟩
      | cons y between =>
        obtain ⟨rfl, rfl⟩ := List.cons.inj hb
        exact .inr (.inl ⟨between, rfl, rfl⟩)
    · cases rest with
      | nil => exact .inl ⟨by simp, (List.cons.inj hb).2.symm⟩
      | cons y between =>
        obtain ⟨rfl, rfl⟩ := List.cons.inj hb
        exact .inr (.inr ⟨between, rfl, rfl⟩)
  · rintro (⟨rfl, rfl⟩ | ⟨between, rfl, rfl⟩ | ⟨between, rfl, rfl⟩)
    · rfl
    · simp
    · simp

/-- The parts of a text around a separator of one character are as they are, unless one separator is
taken for another one. -/
theorem append_separator_eq_iff {separator a b a' b' : String} {c : Char}
    (hc : separator.toList = [c]) :
    a ++ separator ++ b = a' ++ separator ++ b' ↔
      (a = a' ∧ b = b') ∨ Slides separator a b a' b' ∨ Slides separator a' b' a b := by
  have hslides (a b a' b' : String) : Slides separator a b a' b' ↔
      ∃ between, a'.toList = a.toList ++ c :: between ∧ b.toList = between ++ c :: b'.toList := by
    constructor
    · rintro ⟨between, rfl, rfl⟩
      exact ⟨between.toList, by simp [hc], by simp [hc]⟩
    · rintro ⟨between, ha, hb⟩
      refine ⟨String.ofList between, String.toList_inj.1 ?_, String.toList_inj.1 ?_⟩
      · simp [hc, ha]
      · simp [hc, hb]
  rw [hslides, hslides, ← String.toList_inj, ← String.toList_inj, ← String.toList_inj,
    ← append_cons_eq_append_cons_iff]
  simp [hc]

/-- A separator does not slide into a part in which it does not occur. -/
theorem not_slides {separator a b a' b' : String} {c : Char} (hc : separator.toList = [c])
    (h : c ∉ a'.toList) : ¬ Slides separator a b a' b' := by
  rintro ⟨between, rfl, -⟩
  exact h (by simp [hc])

end CircuitGraph.Text
