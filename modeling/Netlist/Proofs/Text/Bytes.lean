import Mathlib.Data.List.DropRight
import Netlist.Text.Bytes

/-!
The bytes of a text. A character below 128 is a byte of its own, and that byte is no part of any
other character; so such a character is counted, looked for and stripped in a text as its byte is in
the bytes.
-/
namespace Netlist.Text

/-- The bytes of a text. -/
def bytes (s : String) : List UInt8 := s.toByteArray.data.toList

/-- The bytes of some characters. -/
def encoded (cs : List Char) : List UInt8 := cs.flatMap String.utf8EncodeChar

theorem bytes_eq (s : String) : bytes s = encoded s.toList := by
  rw [bytes, ← String.utf8Encode_toList, List.utf8Encode, List.toList_data_toByteArray, encoded]

theorem encoded_cons (c : Char) (cs : List Char) :
    encoded (c :: cs) = String.utf8EncodeChar c ++ encoded cs := rfl

theorem encoded_singleton (c : Char) : encoded [c] = String.utf8EncodeChar c := List.append_nil _

theorem encoded_append (a b : List Char) : encoded (a ++ b) = encoded a ++ encoded b :=
  List.flatMap_append

theorem length_encoded (cs : List Char) : (encoded cs).length = byteLength cs := by
  induction cs with
  | nil => rfl
  | cons c cs ih =>
    rw [encoded_cons, List.length_append, String.length_utf8EncodeChar, ih, byteLength]

theorem length_bytes (s : String) : (bytes s).length = byteLength s.toList := by
  rw [bytes_eq, length_encoded]

section Single

variable {a c : Char} {cs : List Char}

theorem toNat_byte (ha : a.toNat < 128) : a.toUInt8.toNat = a.toNat := by
  show a.val.toNat % 256 = a.val.toNat
  exact Nat.mod_eq_of_lt (Nat.lt_trans ha (by decide))

theorem encodeChar_single (ha : a.toNat < 128) : String.utf8EncodeChar a = [a.toUInt8] := by
  refine String.utf8EncodeChar_eq_singleton (Char.utf8Size_eq_one_iff.mpr ?_)
  rw [UInt32.le_iff_toNat_le, Char.toNat_val]
  exact Nat.le_of_lt_succ ha

/-- All bytes of a longer character have their highest bit set. -/
theorem high_of_mem_encodeChar (hc : 128 ≤ c.toNat) {b : UInt8}
    (hb : b ∈ String.utf8EncodeChar c) : 128 ≤ b.toNat := by
  rw [← Char.toNat_val] at hc
  unfold String.utf8EncodeChar at hb
  dsimp only at hb
  split_ifs at hb
  all_goals
    simp only [List.mem_cons, List.not_mem_nil, or_false, ← UInt8.toNat_inj,
      UInt8.toNat_ofNat'] at hb
    omega

theorem not_mem_encodeChar (ha : a.toNat < 128) (hne : c ≠ a) :
    a.toUInt8 ∉ String.utf8EncodeChar c := by
  intro hmem
  rcases Nat.lt_or_ge c.toNat 128 with hc | hc
  · rw [encodeChar_single hc, List.mem_singleton, ← UInt8.toNat_inj, toNat_byte ha,
      toNat_byte hc] at hmem
    exact hne (Char.toNat_inj.mp hmem.symm)
  · have hhigh := high_of_mem_encodeChar hc hmem
    rw [toNat_byte ha] at hhigh
    omega

theorem count_encoded (ha : a.toNat < 128) : (encoded cs).count a.toUInt8 = cs.count a := by
  induction cs with
  | nil => rfl
  | cons c cs ih =>
    rw [encoded_cons, List.count_append, ih]
    by_cases hc : c = a
    · rw [hc, encodeChar_single ha, List.count_singleton_self, List.count_cons_self, Nat.add_comm]
    · rw [List.count_eq_zero.mpr (not_mem_encodeChar ha hc), Nat.zero_add,
        List.count_cons_of_ne hc]

theorem mem_encoded (ha : a.toNat < 128) : a.toUInt8 ∈ encoded cs ↔ a ∈ cs := by
  rw [← List.count_pos_iff, count_encoded ha, List.count_pos_iff]

theorem encodeChar_ne_nil (c : Char) : String.utf8EncodeChar c ≠ [] := by
  intro hnil
  have hsize := String.length_utf8EncodeChar c
  have hpos := c.utf8Size_pos
  rw [hnil, List.length_nil] at hsize
  omega

/-- Another character brings another byte. -/
theorem exists_ne_encoded (ha : a.toNat < 128) (h : ∃ c ∈ cs, c ≠ a) :
    ∃ b ∈ encoded cs, b ≠ a.toUInt8 := by
  obtain ⟨c, hc, hne⟩ := h
  obtain ⟨b, hb⟩ := List.exists_mem_of_ne_nil _ (encodeChar_ne_nil c)
  exact ⟨b, List.mem_flatMap.mpr ⟨c, hc, hb⟩, fun heq => not_mem_encodeChar ha hne (heq ▸ hb)⟩

/-- A text that does not end in a character does not end in its byte. -/
private theorem rdropWhile_encodeChar (ha : a.toNat < 128) (hne : c ≠ a) (bs : List UInt8) :
    (bs ++ String.utf8EncodeChar c).rdropWhile (· = a.toUInt8) =
      bs ++ String.utf8EncodeChar c := by
  have hsome := encodeChar_ne_nil c
  refine List.rdropWhile_eq_self_iff.mpr fun hl => ?_
  rw [List.getLast_append_of_right_ne_nil _ _ hsome, decide_eq_true_eq]
  intro hlast
  exact not_mem_encodeChar ha hne (hlast ▸ List.getLast_mem hsome)

theorem rdropWhile_encoded (ha : a.toNat < 128) :
    (encoded cs).rdropWhile (· = a.toUInt8) = encoded (cs.rdropWhile (· = a)) := by
  induction cs using List.reverseRecOn with
  | nil => rfl
  | append_singleton cs c ih =>
    have hsplit : encoded (cs ++ [c]) = encoded cs ++ String.utf8EncodeChar c := by
      rw [encoded_append, encoded_singleton]
    by_cases hc : c = a
    · rw [hsplit, hc, encodeChar_single ha, List.rdropWhile_concat_pos _ _ _ (by simp),
        List.rdropWhile_concat_pos _ _ _ (by simp), ih]
    · rw [hsplit, rdropWhile_encodeChar ha hc, List.rdropWhile_concat_neg _ _ _ (by simpa using hc),
        hsplit]

end Single

end Netlist.Text
