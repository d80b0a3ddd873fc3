import Mathlib.Data.List.Basic
import Optable.Proofs.ByteOrder
import Optable.Token.Offsets
/-!
# The bytes of a text

Every character takes bytes of its own.  One of ASCII is its only byte, and no byte of any other is
a character of ASCII, so that ASCII characters can be looked for among the bytes.
-/

namespace Optable

namespace Text

variable {t : Text} {c : Char} {k : Nat}

theorem toBytes_append (s t : Text) : toBytes (s ++ t) = toBytes s ++ toBytes t := by
  rw [toBytes, String.ofList_append, String.toByteArray_append, toBytes, toBytes]

/-- Bytes that spell a text are the bytes of that text. -/
theorem toBytes_of_ofBytes? {bytes : ByteArray} (h : ofBytes? bytes = some t) :
    toBytes t = bytes := by
  obtain ⟨string, hstring, rfl⟩ := Option.map_eq_some_iff.1 h
  unfold String.fromUTF8? at hstring
  split at hstring
  · cases hstring
    rw [toBytes, String.ofList_toList]
    rfl
  · cases hstring

theorem size_toBytes_nil : (toBytes []).size = 0 := rfl

theorem size_toBytes_append (s t : Text) :
    (toBytes (s ++ t)).size = (toBytes s).size + (toBytes t).size := by
  rw [toBytes_append, ByteArray.size_append]

theorem size_toBytes_cons (c : Char) (t : Text) :
    (toBytes (c :: t)).size = c.utf8Size + (toBytes t).size := by
  rw [← ByteArray.size_data, ← Array.length_toList, data_toBytes_cons, List.length_append,
    String.length_utf8EncodeChar, Array.length_toList, ByteArray.size_data]

theorem size_toBytes_singleton (c : Char) : (toBytes [c]).size = c.utf8Size := by
  rw [size_toBytes_cons, size_toBytes_nil, Nat.add_zero]

theorem length_le_size_toBytes (t : Text) : t.length ≤ (toBytes t).size := by
  induction t with
  | nil => exact Nat.zero_le _
  | cons c t ih =>
    have hpos := c.utf8Size_pos
    rw [size_toBytes_cons, List.length_cons]
    omega

theorem getElem?_toBytes_append (s t : Text) (k : Nat) :
    (toBytes (s ++ t))[(toBytes s).size + k]? = (toBytes t)[k]? := by
  rw [toBytes_append]
  have hsize := ByteArray.size_append (a := toBytes s) (b := toBytes t)
  by_cases hk : k < (toBytes t).size
  · rw [getElem?_pos (toBytes s ++ toBytes t) _ (by omega), getElem?_pos (toBytes t) k hk,
      ByteArray.getElem_append_right (Nat.le_add_right _ _)]
    simp
  · rw [getElem?_neg (toBytes s ++ toBytes t) _ (by omega), getElem?_neg (toBytes t) k hk]

theorem getElem?_toBytes_cons (t : Text) (hk : k < c.utf8Size) :
    (toBytes (c :: t))[k]? = (String.utf8EncodeChar c)[k]? := by
  have hlt : k < (toBytes (c :: t)).size := by
    rw [size_toBytes_cons]
    omega
  rw [getElem?_pos (toBytes (c :: t)) k hlt, ByteArray.getElem_eq_getElem_data,
    ← Array.getElem_toList]
  simp only [data_toBytes_cons]
  rw [List.getElem_append_left (by rwa [String.length_utf8EncodeChar]), List.getElem?_eq_getElem]

/-- A character of ASCII is its own byte. -/
theorem utf8EncodeChar_of_ascii (h : c.toNat < 128) :
    String.utf8EncodeChar c = [UInt8.ofNat c.toNat] := by
  have hc : c.val.toNat ≤ 127 := Nat.le_of_lt_succ h
  rw [String.utf8EncodeChar, if_pos hc]
  rfl

theorem utf8Size_of_ascii (h : c.toNat < 128) : c.utf8Size = 1 := by
  rw [← String.length_utf8EncodeChar, utf8EncodeChar_of_ascii h, List.length_singleton]

/-- A character outside ASCII is started by a byte of one kind and continued by bytes of another,
none of which is a character of ASCII. -/
theorem exists_utf8EncodeChar (h : 128 ≤ c.toNat) :
    ∃ first rest, String.utf8EncodeChar c = first :: rest ∧ 0xC0 ≤ first.toNat ∧
      ∀ b ∈ rest, Token.Offsets.continues b := by
  have hc : 128 ≤ c.val.toNat := h
  have hvalid : c.val.toNat < 0xd800 ∨ 0xdfff < c.val.toNat ∧ c.val.toNat < 0x110000 := c.valid
  clear h
  unfold String.utf8EncodeChar
  generalize c.val.toNat = n at *
  dsimp only
  have hbyte (m : Nat) (hm : m < 256) : (UInt8.ofNat m).toNat = m := by
    rw [UInt8.toNat_ofNat', Nat.mod_eq_of_lt hm]
  split_ifs
  · omega
  all_goals
    refine ⟨_, _, rfl, ?_, ?_⟩
    · rw [hbyte _ (by omega)]
      omega
    · simp (disch := omega) only [List.forall_mem_cons, Token.Offsets.continues, hbyte,
        Bool.and_eq_true, decide_eq_true_eq, List.not_mem_nil, false_implies, implies_true,
        and_true]
      omega

theorem le_of_mem_utf8EncodeChar (h : 128 ≤ c.toNat) {b : UInt8}
    (hb : b ∈ String.utf8EncodeChar c) : 128 ≤ b.toNat := by
  obtain ⟨first, rest, hbytes, hfirst, hrest⟩ := exists_utf8EncodeChar h
  rw [hbytes, List.mem_cons] at hb
  rcases hb with rfl | hb
  · omega
  · have hcontinues := hrest b hb
    simp only [Token.Offsets.continues, Bool.and_eq_true, decide_eq_true_eq] at hcontinues
    exact hcontinues.1

end Text

end Optable
