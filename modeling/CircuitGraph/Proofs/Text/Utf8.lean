import Mathlib.Tactic.SplitIfs
import Mathlib.Tactic.ByContra

/-!
# Texts compare like their bytes

Texts are ordered by the code points of their characters. The encoding of UTF-8 keeps this order: of
two characters, the one with the lesser code point has the lesser bytes, and neither encoding goes
on where the other one ends (`lt_utf8EncodeChar`). So comparing texts is comparing their bytes
(`lt_iff_utf8_lt`).
-/

namespace CircuitGraph.Text

/-- The bytes of a text in UTF-8. -/
def utf8 (s : String) : List UInt8 := s.toUTF8.data.toList

/-- The bytes of a text are those of its characters, one after the other. -/
theorem utf8_eq_flatMap (s : String) : utf8 s = s.toList.flatMap String.utf8EncodeChar := by
  rw [utf8, String.toUTF8_eq_toByteArray, ← String.utf8Encode_toList, List.utf8Encode,
    List.toList_data_toByteArray]

/-- The bytes of two characters differ as the characters do, whatever follows them. -/
theorem lt_utf8EncodeChar {c d : Char} (h : c < d) (cs ds : List UInt8) :
    String.utf8EncodeChar c ++ cs < String.utf8EncodeChar d ++ ds := by
  have hlt : c.val.toNat < d.val.toNat := h
  have hd : d.val.toNat < 1114112 := by
    rcases d.valid with hd | hd
    · exact Nat.lt_trans hd (by decide)
    · exact hd.2
  unfold String.utf8EncodeChar
  -- one case for each pair of lengths; the first byte tells the length
  dsimp only
  split_ifs <;>
    simp (disch := omega) only [List.cons_append, List.nil_append, List.cons_lt_cons_iff,
      UInt8.lt_iff_toNat_lt, ← UInt8.toNat_inj, UInt8.toNat_ofNat', Nat.mod_eq_of_lt] <;>
    omega

/-- Characters have bytes. -/
theorem utf8EncodeChar_ne_nil (c : Char) : String.utf8EncodeChar c ≠ [] := by
  unfold String.utf8EncodeChar
  dsimp only
  split_ifs <;> exact List.cons_ne_nil _ _

/-- A lesser text has lesser bytes. -/
theorem utf8_lt_of_lt {a b : String} (h : a < b) : utf8 a < utf8 b := by
  rw [utf8_eq_flatMap, utf8_eq_flatMap]
  have hlex : List.Lex (· < ·) a.toList b.toList := List.lex_lt.2 h
  generalize a.toList = cs at hlex ⊢
  generalize b.toList = ds at hlex ⊢
  -- the induction is on the common beginning of the two lists of characters
  induction hlex with
  | @nil c _ =>
    rw [List.flatMap_nil, List.flatMap_cons]
    obtain ⟨byte, rest, hbytes⟩ := List.exists_cons_of_ne_nil (utf8EncodeChar_ne_nil c)
    rw [hbytes]
    exact List.nil_lt_cons _ _
  | rel hlt => exact lt_utf8EncodeChar hlt _ _
  | cons _ ih => exact List.append_left_lt ih

/-- Texts compare like their bytes. -/
theorem lt_iff_utf8_lt {a b : String} : a < b ↔ utf8 a < utf8 b := by
  refine ⟨utf8_lt_of_lt, fun h => ?_⟩
  by_contra hge
  -- were the text not less, it would be the same or greater, and its bytes as well
  by_cases hgt : b < a
  · exact List.lt_asymm h (utf8_lt_of_lt hgt)
  · rw [String.le_antisymm (String.not_lt.1 hgt) (String.not_lt.1 hge)] at h
    exact List.lt_irrefl _ h

/-- Lists of texts compare like the lists of their bytes. -/
theorem map_utf8_lt_of_lex {as bs : List String} (h : List.Lex (· < ·) as bs) :
    as.map utf8 < bs.map utf8 := by
  induction h with
  | nil => exact List.nil_lt_cons _ _
  | rel hlt => exact List.cons_lt_cons_iff.2 (.inl (lt_iff_utf8_lt.1 hlt))
  | cons _ ih => exact List.cons_lt_cons_iff.2 (.inr ⟨rfl, ih⟩)

end CircuitGraph.Text
