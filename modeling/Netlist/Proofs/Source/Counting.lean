import Netlist.Proofs.Source.Places

/-!
The line index agrees with counting. In a text of less than 2^32 bytes an offset has the place that
is counted and the line around it is cut out, unless a number of the place is 2^32; then it has
neither. Only the end of a text of the greatest length can be such an offset.
-/
namespace Netlist

namespace SourceFile

variable {f : SourceFile} {a b offset : Nat} {p q : Place}

theorem counted_of_place (h : f.place offset = .ok p) : p = .counted f.bytes offset := by
  rw [place_eq] at h
  split at h
  · exact (Except.ok.inj h).symm
  · cases h

theorem key_lt_of_place (ha : f.place a = .ok p) (hb : f.place b = .ok q) (hab : a < b) :
    p.key < q.key := by
  rw [counted_of_place ha, counted_of_place hb]
  exact Place.counted_strictMono f.bytes hab

theorem offset_of_place (ha : f.place a = .ok p) (hb : f.place b = .ok p) : a = b := by
  refine (Place.counted_strictMono f.bytes).injective (congrArg Place.key ?_)
  exact (counted_of_place ha).symm.trans (counted_of_place hb)

/-- Without a place there is no line to show. -/
theorem lineText_of_error {m : Misuse} (h : f.place offset = .error m) :
    f.lineText offset = .error m := by
  simp only [lineText, h, bind, Except.bind]

/-- Every offset of a file has the place that is counted, and its line is the bytes between two
newlines; both are missing just for the last offset of 32 bits if its place needs more. Later
offsets have later places. -/
theorem places_counted (f : SourceFile) (hlength : f.bytes.length < UInt32.size) :
    (∀ offset ≤ f.bytes.length,
      (Text.Placed f.bytes offset →
        f.place offset = .ok (.counted f.bytes offset) ∧
          ∃ text, f.lineText offset = .ok text ∧ Text.LineText f.content offset text) ∧
      (¬ Text.Placed f.bytes offset →
        f.place offset = .error (.farPlace offset) ∧
          f.lineText offset = .error (.farPlace offset))) ∧
    (∀ a b p q, f.place a = .ok p → f.place b = .ok q → a < b → p.key < q.key) ∧
    ∀ a b p, f.place a = .ok p → f.place b = .ok p → a = b := by
  refine ⟨fun offset hinside => ?_, fun a b p q => key_lt_of_place, fun a b p => offset_of_place⟩
  have hoffset : offset < UInt32.size := Nat.lt_of_le_of_lt hinside hlength
  constructor
  · intro hplaced
    have hplace := place_of_placed hinside hoffset hplaced
    exact ⟨hplace, lineText_of_place hplace⟩
  · intro hfar
    have hplace := place_of_not_placed hinside hoffset hfar
    exact ⟨hplace, lineText_of_error hplace⟩

/-- A file with a character of two bytes, a carriage return and an empty line. -/
def accented : SourceFile := ⟨"a.sv", "é\r\n\nb"⟩

/-- An offset inside a character, one on an empty line and the end of the text. -/
theorem places_counted_accented :
    accented.bytes.length < UInt32.size ∧
      (accented.place 1 = .ok ⟨1, 2⟩ ∧
        ∃ text, accented.lineText 1 = .ok text ∧ Text.bytes text = [195, 169]) ∧
      (accented.place 4 = .ok ⟨2, 1⟩ ∧
        ∃ text, accented.lineText 4 = .ok text ∧ Text.bytes text = []) ∧
      (accented.place 6 = .ok ⟨3, 2⟩ ∧
        ∃ text, accented.lineText 6 = .ok text ∧ Text.bytes text = [98]) := by
  have hbytes : accented.bytes = [195, 169, 13, 10, 10, 98] := by decide +kernel
  have hlength : accented.bytes.length < UInt32.size := by
    rw [hbytes]
    decide
  have hat (offset : Nat) (hoffset : offset ≤ 6) :
      accented.place offset = .ok (.counted [195, 169, 13, 10, 10, 98] offset) ∧
        ∃ text, accented.lineText offset = .ok text ∧
          Text.bytes text = Text.lineBytes [195, 169, 13, 10, 10, 98] offset := by
    have hinside : offset ≤ accented.bytes.length := by rwa [hbytes]
    have hearly : offset + 1 < UInt32.size :=
      Nat.lt_of_le_of_lt (Nat.succ_le_succ hoffset) (by decide)
    obtain ⟨hplace, text, htext, hline⟩ :=
      ((places_counted accented hlength).1 offset hinside).1 (.inl hearly)
    exact ⟨hbytes ▸ hplace, text, htext, hbytes ▸ hline.bytes_eq⟩
  exact ⟨hlength, hat 1 (by decide), hat 4 (by decide), hat 6 (by decide)⟩

/-- A file of one character over and over. -/
def repeated (c : Char) (n : Nat) : SourceFile := ⟨"a.sv", String.ofList (List.replicate n c)⟩

theorem bytes_repeated {c : Char} (hc : c.toNat < 128) (n : Nat) :
    (repeated c n).bytes = List.replicate n c.toUInt8 := by
  rw [bytes_eq_encoded, repeated, chars, String.toList_ofList]
  induction n with
  | zero => rfl
  | succ n ih =>
    rw [List.replicate_succ, Text.encoded_cons, Text.encodeChar_single hc, ih, List.replicate_succ,
      List.singleton_append]

private theorem counted_spaces (n : Nat) : Place.counted (repeated ' ' n).bytes n = ⟨1, 1 + n⟩ := by
  have hnone : '\n'.toUInt8 ∉ (List.replicate n ' '.toUInt8).take n := fun hmem =>
    absurd (List.eq_of_mem_replicate (List.mem_of_mem_take hmem)) (by decide)
  rw [bytes_repeated (by decide), Place.counted, Text.lineStart_eq_zero hnone,
    List.count_eq_zero.mpr hnone, Nat.add_zero, Nat.sub_zero]

private theorem counted_newlines (n : Nat) :
    Place.counted (repeated '\n' n).bytes n = ⟨1 + n, 1⟩ := by
  have hall : (List.replicate n '\n'.toUInt8).take n = List.replicate n '\n'.toUInt8 := by
    rw [List.take_replicate, Nat.min_self]
  have hstart : Text.lineStart (List.replicate n '\n'.toUInt8) n = n := by
    rw [Text.lineStart, hall, List.rdropWhile_eq_self_iff.mpr, List.length_replicate]
    intro hne
    simp [List.getLast_replicate]
  rw [bytes_repeated (by decide), Place.counted, hstart, hall, List.count_replicate_self,
    Nat.sub_self, Nat.add_zero]

private theorem unplaced_of_far {c : Char} (hc : c.toNat < 128) {n : Nat} (hn : n < UInt32.size)
    {p : Place} (hcounted : Place.counted (repeated c n).bytes n = p)
    (hfar : (p.line < UInt32.size && p.column < UInt32.size) = false) :
    (repeated c n).bytes.length < UInt32.size ∧ Place.counted (repeated c n).bytes n = p ∧
      (repeated c n).place n = .error (.farPlace n) ∧
      (repeated c n).lineText n = .error (.farPlace n) := by
  have hplace : (repeated c n).place n = .error (.farPlace n) := by
    rw [place_eq, hcounted, hfar]
    rfl
  refine ⟨?_, hcounted, hplace, lineText_of_error hplace⟩
  rwa [bytes_repeated hc, List.length_replicate]

/-- The end of the longest text has no place if the text is a single line, and none if it is only
line breaks: the column there, or the line, would be 2^32. -/
theorem end_unplaced :
    ((repeated ' ' 4294967295).bytes.length < UInt32.size ∧
      Place.counted (repeated ' ' 4294967295).bytes 4294967295 = ⟨1, 4294967296⟩ ∧
      (repeated ' ' 4294967295).place 4294967295 = .error (.farPlace 4294967295) ∧
      (repeated ' ' 4294967295).lineText 4294967295 = .error (.farPlace 4294967295)) ∧
    (repeated '\n' 4294967295).bytes.length < UInt32.size ∧
      Place.counted (repeated '\n' 4294967295).bytes 4294967295 = ⟨4294967296, 1⟩ ∧
      (repeated '\n' 4294967295).place 4294967295 = .error (.farPlace 4294967295) ∧
      (repeated '\n' 4294967295).lineText 4294967295 = .error (.farPlace 4294967295) :=
  ⟨unplaced_of_far (by decide) (by decide) (counted_spaces _) rfl,
    unplaced_of_far (by decide) (by decide) (counted_newlines _) rfl⟩

end SourceFile

end Netlist
