import Netlist.Diagnostic.Report
import Netlist.Proofs.Source.Lines

/-!
Places in a file. Line and column of an offset need no more than 32 bits unless the offset is the
last one that fits and the text before it is one line, or only line breaks. So the places of a text
of less than 2^32 bytes are those that are counted, all but that of such an offset.
-/
namespace Netlist

namespace Text

variable {bs : List UInt8} {offset : Nat}

/-- An offset with a place: one before the last of 32 bits, or the last behind a newline and
something else. -/
def Placed (bs : List UInt8) (offset : Nat) : Prop :=
  offset + 1 < UInt32.size ∨
    ('\n'.toUInt8 ∈ bs.take offset ∧ ∃ b ∈ bs.take offset, b ≠ '\n'.toUInt8)

theorem count_take_le (bs : List UInt8) (offset : Nat) :
    (bs.take offset).count '\n'.toUInt8 ≤ offset :=
  Nat.le_trans List.count_le_length (List.length_take_le _ _)

/-- Something else than newlines leaves room for fewer lines than bytes. -/
theorem count_take_lt (h : ∃ b ∈ bs.take offset, b ≠ '\n'.toUInt8) :
    (bs.take offset).count '\n'.toUInt8 < offset := by
  obtain ⟨b, hb, hne⟩ := h
  refine Nat.lt_of_lt_of_le (Nat.lt_of_le_of_ne List.count_le_length fun heq => ?_)
    (List.length_take_le _ _)
  exact hne (List.count_eq_length.mp heq b hb).symm

/-- The numbers of a place fit in 32 bits just if its offset is placed. -/
theorem placed_iff (hinside : offset ≤ bs.length) (hoffset : offset < UInt32.size) :
    Placed bs offset ↔ (Place.counted bs offset).line < UInt32.size ∧
      (Place.counted bs offset).column < UInt32.size := by
  have hlines := count_take_le bs offset
  simp only [Place.counted]
  constructor
  · rintro (hearly | ⟨hbreak, hother⟩)
    · omega
    · have hpos := lineStart_pos hbreak
      have hlt := count_take_lt hother
      have hle := lineStart_le bs offset
      omega
  · rintro ⟨hline, hcolumn⟩
    by_cases hearly : offset + 1 < UInt32.size
    · exact .inl hearly
    · refine .inr ⟨?_, ?_⟩
      · by_contra hbreak
        rw [lineStart_eq_zero hbreak] at hcolumn
        omega
      · by_contra hother
        have hall : ∀ b ∈ bs.take offset, '\n'.toUInt8 = b := fun b hb =>
          (not_not.mp fun hne => hother ⟨b, hb, hne⟩).symm
        rw [List.count_eq_length.mpr hall, List.length_take, Nat.min_eq_left hinside] at hline
        omega

end Text

namespace SourceFile

variable {f : SourceFile} {offset : Nat}

theorem place_of_placed (hinside : offset ≤ f.bytes.length) (hoffset : offset < UInt32.size)
    (h : Text.Placed f.bytes offset) : f.place offset = .ok (.counted f.bytes offset) := by
  obtain ⟨hline, hcolumn⟩ := (Text.placed_iff hinside hoffset).mp h
  rw [place_eq, if_pos (by simp [hline, hcolumn])]

theorem place_of_not_placed (hinside : offset ≤ f.bytes.length) (hoffset : offset < UInt32.size)
    (h : ¬ Text.Placed f.bytes offset) : f.place offset = .error (.farPlace offset) := by
  rw [Text.placed_iff hinside hoffset] at h
  rw [place_eq, if_neg (by simpa using h)]

/-- On a single line no offset from the last one of 32 bits on has a place. -/
theorem place_far (hline : '\n' ∉ f.chars) (hfar : UInt32.size ≤ offset + 1) :
    f.place offset = .error (.farPlace offset) := by
  have hstart : Text.lineStart f.bytes offset = 0 := by
    refine Text.lineStart_eq_zero fun hmem => hline ?_
    rw [bytes_eq_encoded] at hmem
    exact (Text.mem_encoded (by decide)).mp (List.mem_of_mem_take hmem)
  have hwide : ¬ (Place.counted f.bytes offset).column < UInt32.size := by
    simp only [Place.counted, hstart]
    omega
  rw [place_eq, if_neg (by simp [hwide])]

end SourceFile

/-- A text in which every offset has a place. -/
def Placeable (content : String) : Prop :=
  Text.byteLength content.toList + 1 < UInt32.size ∨
    (Text.byteLength content.toList < UInt32.size ∧ '\n' ∈ content.toList ∧
      ∃ c ∈ content.toList, c ≠ '\n')

theorem Placeable.place {f : SourceFile} (h : Placeable f.content) {offset : Nat}
    (hoffset : offset ≤ Text.byteLength f.content.toList) :
    f.place offset = .ok (.counted f.bytes offset) := by
  have hlength : f.bytes.length = Text.byteLength f.content.toList := Text.length_bytes f.content
  have hfits : Text.byteLength f.content.toList < UInt32.size := by
    rcases h with hshort | ⟨hlong, -⟩
    · omega
    · exact hlong
  refine SourceFile.place_of_placed (by omega) (by omega) ?_
  rcases h with hshort | ⟨-, hbreak, hother⟩
  · exact .inl (by omega)
  · rcases Nat.lt_or_eq_of_le hoffset with hlt | rfl
    · exact .inl (by omega)
    · refine .inr ?_
      rw [← hlength, List.take_length, SourceFile.bytes_eq_encoded]
      exact ⟨(Text.mem_encoded (by decide)).mpr hbreak, Text.exists_ne_encoded (by decide) hother⟩

section Rendering

variable {sources : Sources} {f : SourceFile}

private theorem locate_ok {span : Span} (hf : sources.file span.file = .ok f)
    {first last : Place} (hfirst : f.place span.start = .ok first)
    (hlast : f.place (max (span.stop - 1) span.start) = .ok last) :
    ∃ location, sources.locate span = .ok location := by
  refine ⟨⟨f.path, first, last⟩, ?_⟩
  simp only [Sources.locate, hf, bind, Except.bind, hfirst, hlast]
  rfl

/-- A diagnostic that points into a text where every offset has a place can be rendered. -/
theorem Report.render_ok {d : Diagnostic} (color : Bool) (hf : sources.file d.span.file = .ok f)
    (hplaces : Placeable f.content) (hordered : d.span.start ≤ d.span.stop)
    (hinside : d.span.stop ≤ Text.byteLength f.content.toList) :
    ∃ text, Report.render color sources d = .ok text := by
  have hfirst := hplaces.place (Nat.le_trans hordered hinside)
  have hstop : max (d.span.stop - 1) d.span.start ≤ Text.byteLength f.content.toList := by omega
  have hlast := hplaces.place hstop
  obtain ⟨line, hline, -⟩ := SourceFile.lineText_of_place hfirst
  obtain ⟨location, hlocation⟩ := locate_ok hf hfirst hlast
  have hexcerpt : ∃ text, Report.excerpt sources d = .ok text := by
    simp only [Report.excerpt, hf, bind, Except.bind, hfirst, hlocation, hline, Span.length,
      if_pos hordered]
    exact ⟨_, rfl⟩
  obtain ⟨text, htext⟩ := hexcerpt
  simp only [Report.render, htext]
  split
  · exact ⟨_, rfl⟩
  · exact ⟨_, rfl⟩

theorem Report.render_far {d : Diagnostic} {m : Misuse} (color : Bool)
    (hdummy : d.span.isDummy = false) (hf : sources.file d.span.file = .ok f)
    (hplace : f.place d.span.start = .error m) : Report.render color sources d = .error m := by
  have hexcerpt : Report.excerpt sources d = .error m := by
    simp only [Report.excerpt, hf, bind, Except.bind, hplace]
  simp only [Report.render, hexcerpt, hdummy]
  rfl

private theorem mapM_ok_iff {ds : List Diagnostic} {color : Bool} :
    (∃ texts, ds.mapM (Report.render color sources) = .ok texts) ↔
      ∀ d ∈ ds, ∃ text, Report.render color sources d = .ok text := by
  induction ds with
  | nil => exact ⟨fun _ => nofun, fun _ => ⟨[], rfl⟩⟩
  | cons d ds ih =>
    rw [List.mapM_cons, List.forall_mem_cons, ← ih]
    cases Report.render color sources d with
    | error m => exact ⟨nofun, nofun⟩
    | ok text =>
      cases ds.mapM (Report.render color sources) with
      | error m => exact ⟨nofun, nofun⟩
      | ok texts => exact ⟨fun _ => ⟨⟨text, rfl⟩, ⟨texts, rfl⟩⟩, fun _ => ⟨text :: texts, rfl⟩⟩

/-- All diagnostics can be rendered just if each of them can. -/
theorem Report.renderAll_ok_iff {ds : List Diagnostic} {color : Bool} :
    (∃ text, Report.renderAll color sources ds = .ok text) ↔
      ∀ d ∈ ds, ∃ text, Report.render color sources d = .ok text := by
  rw [← mapM_ok_iff, Report.renderAll]
  cases ds.mapM (Report.render color sources) with
  | error m => exact ⟨nofun, nofun⟩
  | ok texts => exact ⟨fun _ => ⟨texts, rfl⟩, fun _ => ⟨_, rfl⟩⟩

end Rendering

end Netlist
