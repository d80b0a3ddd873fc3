import Mathlib.Data.List.Lex
import Optable.Text.Order
import Optable.Text.Utf8
/-!
# The order of bytes

Texts in UTF-8 are ordered by their bytes as they are by their code points.
-/

namespace Optable.Text

/-- Behind characters of different code points nothing matters to the order of the bytes. -/
theorem utf8EncodeChar_append_lt {c d : Char} (h : c.toNat < d.toNat) (s t : List UInt8) :
    String.utf8EncodeChar c ++ s < String.utf8EncodeChar d ++ t := by
  have hc : c.val.toNat < d.val.toNat := h
  have hd : d.val.toNat < 1114112 := by
    have hvalid : d.val.toNat < 0xd800 ∨ 0xdfff < d.val.toNat ∧ d.val.toNat < 0x110000 := d.valid
    omega
  clear h
  unfold String.utf8EncodeChar
  generalize c.val.toNat = m, d.val.toNat = n at *
  dsimp only
  split_ifs <;>
    simp only [List.cons_append, List.nil_append, List.cons_lt_cons_iff, UInt8.lt_iff_toNat_lt,
      ← UInt8.toNat_inj, UInt8.toNat_ofNat'] <;>
    simp (disch := omega) only [Nat.mod_eq_of_lt] <;>
    omega

theorem data_toBytes_cons (c : Char) (t : Text) :
    (toBytes (c :: t)).data.toList = String.utf8EncodeChar c ++ (toBytes t).data.toList := by
  simp [toBytes, String.toByteArray_ofList, List.utf8Encode, List.data_toByteArray]

theorem data_toBytes_lt_of_precedes {s t : Text} (h : precedes s t) :
    (toBytes s).data.toList < (toBytes t).data.toList := by
  induction s generalizing t with
  | nil =>
    cases t with
    | nil => cases h
    | cons d t =>
      rw [data_toBytes_cons]
      obtain ⟨byte, bytes, hbytes⟩ :=
        List.exists_cons_of_ne_nil (String.utf8EncodeChar_ne_nil (c := d))
      rw [hbytes]
      exact List.nil_lt_cons _ _
  | cons c s ih =>
    cases t with
    | nil => cases h
    | cons d t =>
      rw [data_toBytes_cons, data_toBytes_cons]
      rcases precedes_cons.1 h with hlt | ⟨rfl, hrest⟩
      · exact utf8EncodeChar_append_lt hlt _ _
      · exact List.Lex.append_left _ (ih hrest) _

/-- Texts are ordered as their bytes in UTF-8 are. -/
theorem data_toBytes_lt_iff {s t : Text} :
    (toBytes s).data.toList < (toBytes t).data.toList ↔ precedes s t := by
  refine ⟨fun h => ?_, data_toBytes_lt_of_precedes⟩
  by_contra hnot
  by_cases hne : s = t
  · subst hne
    exact List.lt_irrefl _ h
  · exact List.lt_asymm h (data_toBytes_lt_of_precedes (precedes_of_not_precedes hnot hne))

end Optable.Text
