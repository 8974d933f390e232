import Mathlib.Data.Prod.Lex
import Netlist.Proofs.Text.Bytes
import Netlist.Source.File

/-!
Lines found by counting. The line of an offset is given by the newlines before it, its column by the
bytes since the last of them; the halving search over the line starts finds the same, because each
start cuts the text right behind a newline and its line ends at the next one.
-/
namespace Netlist

namespace Text

/-- Where the line of an offset starts: behind the last newline before it, or at zero. -/
def lineStart (bs : List UInt8) (offset : Nat) : Nat :=
  ((bs.take offset).rdropWhile (· ≠ '\n'.toUInt8)).length

/-- The bytes of the line of an offset, without the carriage returns at its end. -/
def lineBytes (bs : List UInt8) (offset : Nat) : List UInt8 :=
  ((bs.drop (lineStart bs offset)).takeWhile (· ≠ '\n'.toUInt8)).rdropWhile (· = '\r'.toUInt8)

/-- The text of the line of an offset, cut out between two characters. -/
structure LineText (content : String) (offset : Nat) (text : String) : Prop where
  bytes_eq : bytes text = lineBytes (bytes content) offset
  cut : ∃ before after, content = before ++ (text ++ after) ∧
    (bytes before).length = lineStart (bytes content) offset
  unbroken : '\n' ∉ text.toList

end Text

namespace Place

/-- The line and column of an offset, by counting newlines and bytes. -/
def counted (bs : List UInt8) (offset : Nat) : Place :=
  ⟨1 + (bs.take offset).count '\n'.toUInt8, 1 + (offset - Text.lineStart bs offset)⟩

/-- Places in reading order: by line, then by column. -/
def key (p : Place) : Nat ×ₗ Nat := toLex (p.line, p.column)

end Place

namespace SourceFile

/-- The bytes of a file. -/
def bytes (f : SourceFile) : List UInt8 := Text.bytes f.content

theorem bytes_eq_encoded (f : SourceFile) : f.bytes = Text.encoded f.chars :=
  Text.bytes_eq f.content

end SourceFile

namespace Text

variable {bs cs : List UInt8} {offset : Nat}

/-- What is behind the last newline does not move the start of the line. -/
theorem rdropWhile_append (h : '\n'.toUInt8 ∉ cs) :
    (bs ++ cs).rdropWhile (· ≠ '\n'.toUInt8) = bs.rdropWhile (· ≠ '\n'.toUInt8) := by
  rw [List.rdropWhile, List.reverse_append, List.dropWhile_append_of_pos, List.rdropWhile]
  intro c hc
  rw [decide_eq_true_eq]
  exact fun heq => h (heq ▸ List.mem_reverse.mp hc)

theorem lineStart_le (bs : List UInt8) (offset : Nat) : lineStart bs offset ≤ offset :=
  Nat.le_trans (List.rdropWhile_prefix _ _).length_le (List.length_take_le _ _)

theorem lineStart_pos (h : '\n'.toUInt8 ∈ bs.take offset) : 0 < lineStart bs offset := by
  refine List.length_pos_iff.mpr fun hnil => ?_
  simpa using List.rdropWhile_eq_nil_iff.mp hnil _ h

theorem lineStart_eq_zero (h : '\n'.toUInt8 ∉ bs.take offset) : lineStart bs offset = 0 := by
  refine List.length_eq_zero_iff.mpr (List.rdropWhile_eq_nil_iff.mpr fun b hb => ?_)
  rw [decide_eq_true_eq]
  exact fun heq => h (heq ▸ hb)

end Text

/-- A later offset has a later place: newlines in between raise the line, and without any the line
starts where it did. -/
theorem Place.counted_strictMono (bs : List UInt8) :
    StrictMono fun offset => (Place.counted bs offset).key := by
  intro a b hab
  obtain ⟨d, rfl⟩ := Nat.exists_eq_add_of_lt hab
  have hsplit : bs.take (a + d + 1) = bs.take a ++ (bs.drop a).take (d + 1) := by
    rw [Nat.add_assoc, List.take_add]
  refine Prod.Lex.toLex_lt_toLex.mpr ?_
  by_cases hbreak : '\n'.toUInt8 ∈ (bs.drop a).take (d + 1)
  · left
    have hpos := List.count_pos_iff.mpr hbreak
    simp only [counted, hsplit, List.count_append]
    omega
  · right
    have hstart : Text.lineStart bs (a + d + 1) = Text.lineStart bs a := by
      rw [Text.lineStart, hsplit, Text.rdropWhile_append hbreak, Text.lineStart]
    have hle := Text.lineStart_le bs a
    simp only [counted, hstart, hsplit, List.count_append, List.count_eq_zero.mpr hbreak]
    omega

namespace Slot

section Halving

variable {row : Array Nat} {starts : List Nat} {x low high i j a b : Nat}

/-- What a slot tells about its row. -/
def Fits (row : List Nat) (x : Nat) : Slot → Prop
  | taken i => row[i]? = some x
  | free i => i ≤ row.length ∧ (∀ j y, j < i → row[j]? = some y → y < x) ∧
      ∀ j y, i ≤ j → row[j]? = some y → x < y

theorem lt_of_increasing (hrow : starts.Pairwise (· < ·)) (ha : starts[i]? = some a)
    (hb : starts[j]? = some b) (hij : i < j) : a < b := by
  obtain ⟨hi, rfl⟩ := List.getElem?_eq_some_iff.mp ha
  obtain ⟨hj, rfl⟩ := List.getElem?_eq_some_iff.mp hb
  exact List.pairwise_iff_getElem.mp hrow i j hi hj hij

/-- Each half that is left out lies on one side of the number. -/
theorem between_fits (hrow : row.toList.Pairwise (· < ·)) {hhigh : high ≤ row.size}
    (hopen : low ≤ high) (hbelow : ∀ j y, j < low → row.toList[j]? = some y → y < x)
    (habove : ∀ j y, high ≤ j → row.toList[j]? = some y → x < y) :
    (between row x low high hhigh).Fits row.toList x := by
  have hread (middle : Nat) (h : middle < row.size) : row.toList[middle]? = some row[middle] :=
    List.getElem?_eq_getElem h
  fun_induction between row x low high hhigh with
  | case1 low high hhigh hlt middle hmiddle heq =>
    exact (hread middle hmiddle).trans (congrArg some heq)
  | case2 low high hhigh hlt middle hmiddle hne hless ih =>
    -- The middle is too small, and so is all before it.
    refine ih (by omega) (fun j y hj hy => ?_) habove
    rcases Nat.lt_or_eq_of_le (Nat.le_of_lt_succ hj) with hj | heq
    · exact Nat.lt_trans (lt_of_increasing hrow hy (hread middle hmiddle) hj) hless
    · exact Option.some.inj ((hread middle hmiddle).symm.trans (heq ▸ hy)) ▸ hless
  | case3 low high hhigh hlt middle hmiddle hne hless ih =>
    -- The middle is too large, and so is all behind it.
    refine ih (by omega) hbelow (fun j y hj hy => ?_)
    have hmore : x < row[middle] := by omega
    rcases Nat.lt_or_eq_of_le hj with hj | heq
    · exact Nat.lt_trans hmore (lt_of_increasing hrow (hread middle hmiddle) hy hj)
    · exact Option.some.inj ((hread middle hmiddle).symm.trans (heq ▸ hy)) ▸ hmore
  | case4 low high hhigh hshut =>
    exact ⟨Nat.le_trans hopen hhigh, hbelow, fun j y hj hy => habove j y (by omega) hy⟩

theorem ofRow_fits (hrow : starts.Pairwise (· < ·)) (x : Nat) :
    (ofRow starts.toArray x).Fits starts x := by
  refine between_fits hrow (Nat.zero_le _) (fun j y hj _ => absurd hj (Nat.not_lt_zero j)) ?_
  intro j y hj hy
  rw [List.getElem?_eq_none hj] at hy
  cases hy

end Halving

end Slot

open Text (byteLength)

/-- Line `n` of a text, counted from zero, with the text before it and behind it. -/
structure IsLine (cs : List Char) (n : Nat) (before line after : List Char) : Prop where
  text : cs = before ++ (line ++ after)
  number : before.count '\n' = n
  start : before = [] ∨ ∃ rest, before = rest ++ ['\n']
  unbroken : '\n' ∉ line
  stop : after = [] ∨ ∃ rest, after = '\n' :: rest

namespace IsLine

variable {cs before line after : List Char} {n offset : Nat}

theorem exists_first (cs : List Char) : ∃ line after, IsLine cs 0 [] line after := by
  induction cs with
  | nil => exact ⟨[], [], rfl, rfl, .inl rfl, nofun, .inl rfl⟩
  | cons c cs ih =>
    by_cases hc : c = '\n'
    · exact ⟨[], c :: cs, rfl, rfl, .inl rfl, nofun, .inr ⟨cs, by rw [hc]⟩⟩
    · obtain ⟨line, after, h⟩ := ih
      refine ⟨c :: line, after, congrArg (c :: ·) h.text, rfl, .inl rfl, ?_, h.stop⟩
      rw [List.mem_cons, not_or]
      exact ⟨Ne.symm hc, h.unbroken⟩

/-- A line of what is behind the first newline is a line of the whole. -/
theorem behind {first : List Char} (hfirst : '\n' ∉ first) (h : IsLine cs n before line after) :
    IsLine (first ++ '\n' :: cs) (n + 1) (first ++ '\n' :: before) line after where
  text := by rw [h.text, List.append_assoc, List.cons_append]
  number := by
    rw [List.count_append, List.count_eq_zero.mpr hfirst, List.count_cons_self, h.number,
      Nat.zero_add]
  start := by
    rcases h.start with rfl | ⟨rest, rfl⟩
    · exact .inr ⟨first, rfl⟩
    · exact .inr ⟨first ++ '\n' :: rest, by rw [List.append_assoc, List.cons_append]⟩
  unbroken := h.unbroken
  stop := h.stop

private theorem newline_ascii : '\n'.toNat < 128 := by decide

private theorem return_ascii : '\r'.toNat < 128 := by decide

theorem newline_notMem (h : IsLine cs n before line after) :
    '\n'.toUInt8 ∉ Text.encoded line :=
  fun hmem => h.unbroken ((Text.mem_encoded newline_ascii).mp hmem)

/-- The bytes of the line up to the next newline. -/
theorem takeWhile_encoded (h : IsLine cs n before line after) :
    ((Text.encoded cs).drop (byteLength before)).takeWhile (· ≠ '\n'.toUInt8) =
      Text.encoded line := by
  rw [h.text, Text.encoded_append, ← Text.length_encoded before, List.drop_left,
    Text.encoded_append, List.takeWhile_append_of_pos]
  · rcases h.stop with rfl | ⟨rest, rfl⟩
    · exact List.append_nil _
    · rw [Text.encoded_cons, Text.encodeChar_single newline_ascii, List.singleton_append,
        List.takeWhile_cons_of_neg (by simp), List.append_nil]
  · intro b hb
    simpa using fun heq : b = '\n'.toUInt8 => h.newline_notMem (heq ▸ hb)

section Offset

variable (h : IsLine cs n before line after) (hstart : byteLength before ≤ offset)
  (hstop : after = [] ∨ offset ≤ byteLength before + byteLength line)

include h hstart hstop

/-- The bytes before an offset of a line. -/
theorem take_encoded : (Text.encoded cs).take offset =
    Text.encoded before ++ (Text.encoded line).take (offset - byteLength before) := by
  have hrest : (Text.encoded after).take (offset - byteLength before - byteLength line) = [] := by
    rcases hstop with rfl | hle
    · exact List.take_nil
    · rw [Nat.sub_eq_zero_of_le (by omega), List.take_zero]
  rw [h.text, Text.encoded_append, Text.encoded_append, List.take_append, List.take_append,
    Text.length_encoded, Text.length_encoded, hrest, List.append_nil,
    List.take_of_length_le (by rwa [Text.length_encoded])]

theorem lineStart_encoded : Text.lineStart (Text.encoded cs) offset = byteLength before := by
  have hpart : '\n'.toUInt8 ∉ (Text.encoded line).take (offset - byteLength before) :=
    fun hmem => h.newline_notMem (List.mem_of_mem_take hmem)
  rw [Text.lineStart, h.take_encoded hstart hstop, Text.rdropWhile_append hpart,
    ← Text.length_encoded before]
  rcases h.start with rfl | ⟨rest, rfl⟩
  · rfl
  · rw [Text.encoded_append, Text.encoded_singleton, Text.encodeChar_single newline_ascii,
      List.rdropWhile_concat_neg _ _ _ (by simp)]

theorem counted_encoded :
    Place.counted (Text.encoded cs) offset = ⟨1 + n, 1 + (offset - byteLength before)⟩ := by
  have hpart : ((Text.encoded line).take (offset - byteLength before)).count '\n'.toUInt8 = 0 :=
    List.count_eq_zero.mpr fun hmem => h.newline_notMem (List.mem_of_mem_take hmem)
  rw [Place.counted, h.lineStart_encoded hstart hstop, h.take_encoded hstart hstop,
    List.count_append, hpart, Text.count_encoded newline_ascii, h.number, Nat.add_zero]

end Offset

/-- The line without the carriage returns at its end. -/
theorem lineText {content : String} (h : IsLine content.toList n before line after)
    (hstart : byteLength before ≤ offset)
    (hstop : after = [] ∨ offset ≤ byteLength before + byteLength line) :
    Text.LineText content offset (String.ofList (line.rdropWhile (· = '\r'))) where
  bytes_eq := by
    rw [Text.lineBytes, Text.bytes_eq, Text.bytes_eq, h.lineStart_encoded hstart hstop,
      h.takeWhile_encoded, Text.rdropWhile_encoded return_ascii, String.toList_ofList]
  cut := by
    obtain ⟨returns, hreturns⟩ := List.rdropWhile_prefix (· = '\r') line
    have hbehind : line.rdropWhile (· = '\r') ++ (returns ++ after) = line ++ after := by
      rw [← List.append_assoc, hreturns]
    refine ⟨String.ofList before, String.ofList (returns ++ after), ?_, ?_⟩
    · rw [← String.toList_inj, String.toList_append, String.toList_append, String.toList_ofList,
        String.toList_ofList, String.toList_ofList, hbehind, h.text]
    · rw [Text.bytes_eq, Text.bytes_eq, h.lineStart_encoded hstart hstop, String.toList_ofList,
        Text.length_encoded]
  unbroken := by
    rw [String.toList_ofList]
    exact fun hmem => h.unbroken ((List.rdropWhile_prefix _ _).mem hmem)

end IsLine

namespace SourceFile

variable {f : SourceFile}

theorem newlineEnds_append {line : List Char} (hline : '\n' ∉ line) (offset : Nat)
    (after : List Char) :
    newlineEnds offset (line ++ after) = newlineEnds (offset + byteLength line) after := by
  induction line generalizing offset with
  | nil => rfl
  | cons c line ih =>
    rw [List.mem_cons, not_or] at hline
    rw [List.cons_append, newlineEnds, if_neg (Ne.symm hline.1), ih hline.2, byteLength,
      Nat.add_assoc]

theorem newlineEnds_newline (offset : Nat) (cs : List Char) :
    newlineEnds offset ('\n' :: cs) = (offset + 1) :: newlineEnds (offset + 1) cs := by
  rw [newlineEnds, if_pos rfl]
  rfl

/-- Each start begins a line, and the next start is right behind the newline that ends it. -/
theorem exists_line {offset n start : Nat} {cs : List Char}
    (h : (offset :: newlineEnds offset cs)[n]? = some start) :
    ∃ before line after, IsLine cs n before line after ∧ start = offset + byteLength before ∧
      ((after = [] ∧ (offset :: newlineEnds offset cs)[n + 1]? = none) ∨
        (after ≠ [] ∧ (offset :: newlineEnds offset cs)[n + 1]? =
          some (start + byteLength line + 1))) := by
  induction n generalizing offset cs with
  | zero =>
    obtain rfl : offset = start := Option.some.inj h
    obtain ⟨line, after, hline⟩ := IsLine.exists_first cs
    refine ⟨[], line, after, hline, rfl, ?_⟩
    have hends := newlineEnds_append hline.unbroken offset after
    rw [List.getElem?_cons_succ, hline.text, List.nil_append, hends]
    rcases hline.stop with rfl | ⟨rest, rfl⟩
    · exact .inl ⟨rfl, rfl⟩
    · refine .inr ⟨List.cons_ne_nil _ _, ?_⟩
      rw [newlineEnds_newline, List.getElem?_cons_zero]
  | succ n ih =>
    obtain ⟨first, behind, hfirst⟩ := IsLine.exists_first cs
    have hends := newlineEnds_append hfirst.unbroken offset behind
    rw [List.getElem?_cons_succ, hfirst.text, List.nil_append, hends] at h
    rcases hfirst.stop with rfl | ⟨rest, rfl⟩
    · cases h
    · rw [newlineEnds_newline] at h hends
      obtain ⟨before, line, after, hline, rfl, hnext⟩ := ih h
      refine ⟨first ++ '\n' :: before, line, after, ?_, ?_, ?_⟩
      · rw [hfirst.text]
        exact hline.behind hfirst.unbroken
      · rw [Text.byteLength_append, byteLength]
        have hsize : '\n'.utf8Size = 1 := by decide
        omega
      · rwa [List.getElem?_cons_succ, hfirst.text, List.nil_append, hends]

private theorem lt_of_mem_newlineEnds {offset n : Nat} {cs : List Char}
    (h : n ∈ newlineEnds offset cs) : offset < n := by
  induction cs generalizing offset with
  | nil => cases h
  | cons c cs ih =>
    have hpos := c.utf8Size_pos
    unfold newlineEnds at h
    dsimp only at h
    split at h
    · rcases List.mem_cons.mp h with rfl | h
      · omega
      · exact Nat.lt_trans (by omega) (ih h)
    · exact Nat.lt_trans (by omega) (ih h)

theorem newlineEnds_increasing (offset : Nat) (cs : List Char) :
    (newlineEnds offset cs).Pairwise (· < ·) := by
  induction cs generalizing offset with
  | nil => exact .nil
  | cons c cs ih =>
    unfold newlineEnds
    dsimp only
    split
    · exact List.pairwise_cons.mpr ⟨fun n hn => lt_of_mem_newlineEnds hn, ih _⟩
    · exact ih _

theorem lineStarts_increasing (f : SourceFile) : f.lineStarts.Pairwise (· < ·) :=
  List.pairwise_cons.mpr ⟨fun _ hn => lt_of_mem_newlineEnds hn, newlineEnds_increasing 0 f.chars⟩

/-- The search ends at the last line that starts up to the offset. -/
theorem exists_lineIndex (f : SourceFile) (offset : Nat) :
    ∃ n start, f.lineIndex? offset = some n ∧ f.lineStarts[n]? = some start ∧ start ≤ offset ∧
      ∀ next, f.lineStarts[n + 1]? = some next → offset < next := by
  have hrow := f.lineStarts_increasing
  have hfits := Slot.ofRow_fits hrow offset
  unfold lineIndex?
  cases hslot : Slot.ofRow f.lineStarts.toArray offset with
  | taken n =>
    rw [hslot] at hfits
    exact ⟨n, offset, rfl, hfits, Nat.le_refl _,
      fun next hnext => Slot.lt_of_increasing hrow hfits hnext (Nat.lt_succ_self n)⟩
  | free i =>
    rw [hslot] at hfits
    obtain ⟨hsize, hbelow, habove⟩ := hfits
    cases i with
    | zero =>
      -- A line starts at zero, so no offset lies before all starts.
      exact absurd (habove 0 0 (Nat.le_refl _) rfl) (Nat.not_lt_zero offset)
    | succ n =>
      have hstart : f.lineStarts[n]? = some f.lineStarts[n] := List.getElem?_eq_getElem hsize
      exact ⟨n, _, rfl, hstart, Nat.le_of_lt (hbelow n _ (Nat.lt_succ_self n) hstart),
        fun next hnext => habove (n + 1) next (Nat.le_refl _) hnext⟩

/-- The line that the search finds for an offset, with its start and its end in the index. -/
structure FoundLine (f : SourceFile) (offset n : Nat) (before line after : List Char) : Prop where
  isLine : IsLine f.chars n before line after
  index : f.lineIndex? offset = some n
  start : f.lineStarts[n]? = some (byteLength before)
  stop : f.lineEnd n = byteLength before + byteLength line
  reached : byteLength before ≤ offset
  held : after = [] ∨ offset ≤ byteLength before + byteLength line

theorem exists_foundLine (f : SourceFile) (offset : Nat) :
    ∃ n before line after, FoundLine f offset n before line after := by
  obtain ⟨n, start, hindex, hstart, hle, hlast⟩ := f.exists_lineIndex offset
  obtain ⟨before, line, after, hline, rfl, hnext⟩ := exists_line hstart
  rw [Nat.zero_add] at hstart hle hnext
  refine ⟨n, before, line, after, hline, hindex, hstart, ?_, hle, ?_⟩
  · unfold lineEnd lineStarts
    rcases hnext with ⟨rfl, hnone⟩ | ⟨-, hsome⟩
    · rw [hnone, hline.text, List.append_nil, Text.byteLength_append]
    · rw [hsome]
      rfl
  · rcases hnext with ⟨hafter, -⟩ | ⟨-, hsome⟩
    · exact .inl hafter
    · exact .inr (Nat.le_of_lt_succ (hlast _ hsome))

variable {offset n : Nat} {before line after : List Char}

theorem FoundLine.counted (h : FoundLine f offset n before line after) :
    Place.counted f.bytes offset = ⟨1 + n, 1 + (offset - byteLength before)⟩ := by
  rw [bytes_eq_encoded, h.isLine.counted_encoded h.reached h.held]

theorem FoundLine.lineAt? (h : FoundLine f offset n before line after) :
    f.lineAt? n = some (String.ofList (line.rdropWhile (· = '\r'))) := by
  have hslice : Text.slice? (byteLength before) (byteLength before + byteLength line) f.chars =
      some line := by
    rw [h.isLine.text, Text.slice?_append]
  simp only [SourceFile.lineAt?, h.start, h.stop, hslice, Option.bind_eq_bind, Option.bind_some]
  rfl

/-- The search finds the line and column that are counted. -/
theorem placeOf?_eq (f : SourceFile) (offset : Nat) :
    f.placeOf? offset = some (.counted f.bytes offset) := by
  obtain ⟨n, before, line, after, h⟩ := f.exists_foundLine offset
  rw [h.counted, placeOf?, h.index]
  simp only [h.start, Option.bind_eq_bind, Option.bind_some, Nat.add_comm]
  rfl

theorem place_eq (f : SourceFile) (offset : Nat) :
    f.place offset =
      if (Place.counted f.bytes offset).line < UInt32.size &&
          (Place.counted f.bytes offset).column < UInt32.size
        then .ok (.counted f.bytes offset) else .error (.farPlace offset) := by
  rw [place, placeOf?_eq]

/-- The line of an offset that has a place can be cut out. -/
theorem lineText_of_place (hplace : f.place offset = .ok (.counted f.bytes offset)) :
    ∃ text, f.lineText offset = .ok text ∧ Text.LineText f.content offset text := by
  obtain ⟨n, before, line, after, h⟩ := f.exists_foundLine offset
  refine ⟨_, ?_, h.isLine.lineText h.reached h.held⟩
  simp only [lineText, hplace, bind, Except.bind, h.counted, Nat.add_sub_cancel_left, h.lineAt?]
  rfl

end SourceFile

end Netlist
