import Netlist.Proofs.Design.Literal
import Netlist.Proofs.Lowering.Visits
import Netlist.Proofs.Text.Numerals
import Netlist.Proofs.Token.Numbers

/-!
The values of numbers. The lexer and lowering read the text of a number independently, and agree:
what the lexer finds nothing wrong with is lowered to the number that is written, and the width of a
literal always fits.
-/
namespace Netlist

open Design (Literal Radix)
open Lowering (withoutSeparators)

namespace Piece.SizedNumber

/-- The width that is written, if one is. -/
def width (n : SizedNumber) : Option Nat :=
  if n.size = [] then none else some (numeral 10 (withoutSeparators n.size))

/-- The digits in small letters, without the separators. -/
def kept (n : SizedNumber) : List Char := (withoutSeparators n.digits).map Char.toLower

end Piece.SizedNumber

/-- The digits of a base, with those that stand for unknown bits and for any bit. -/
def Design.Radix.digits (radix : Radix) : List Char :=
  'x' :: 'z' :: '?' :: digitRow.take (match radix with
    | .binary => 2
    | .octal => 8
    | .decimal => 10
    | .hex => 16)

namespace Lowering

open Piece (SizedNumber SizeText)

variable {d : Char} {ds : List Char} {n : SizedNumber}

/-- The value of a plain decimal: an integer of 64 bits, or else its digits. -/
def decimalLiteral (cs : List Char) : Literal :=
  let digits := withoutSeparators cs
  if numeral 10 digits < UInt64.size then .int (numeral 10 digits)
  else .based none false .decimal (String.ofList digits)

theorem withoutSeparators_twice (cs : List Char) :
    withoutSeparators (withoutSeparators cs) = withoutSeparators cs := by
  simp [withoutSeparators, List.filter_filter]

theorem number?_decimal (hd : d.isDigit = true) (hds : ∀ c ∈ ds, Piece.isDecimal c = true) :
    number? (d :: ds) = some (decimalLiteral (d :: ds)) := by
  have hdecimal := isDecimal_digits hd hds
  have hall := all_isDigit hdecimal
  have hvalue : Piece.decimalValue (withoutSeparators (d :: ds)) =
      numeral 10 (withoutSeparators (d :: ds)) := by
    have hdigits := List.all_eq_true.mp hall
    rw [← withoutSeparators_twice] at hdigits
    rw [decimalValue_eq hdigits, withoutSeparators_twice]
  rw [number?, splitAtTick?_decimal hdecimal]
  unfold decimalLiteral plainNumber?
  dsimp only
  rw [hall, hvalue, withoutSeparators_digit hd]
  simp only [List.isEmpty_cons, Bool.not_true, Bool.or_self, Bool.false_eq_true, if_false]
  split <;> rfl

theorem number?_fill (h : Piece.isFill d = true) :
    number? ['\'', d] = some (.fill d.toLower) := by
  have hsplit : splitAtTick? ['\'', d] = some ([], [d]) := rfl
  simp [number?, hsplit, tickNumber?, Text.trim, withoutSeparators, h]

theorem radix_of_isRadix {letter : Char} (h : Piece.isRadix letter = true) :
    ∃ radix : Radix, radix? letter = some radix ∧ letter.toLower = radix.mark := by
  obtain ⟨radix, hradix⟩ := radix?_of_isRadix h
  refine ⟨radix, hradix, ?_⟩
  rw [← Radix.mark_of_radix? hradix]
  cases radix <;> rfl

/-- The digits behind a base are its own. -/
theorem toLower_mem_digits {letter : Char} {radix : Radix} (hletter : letter.toLower = radix.mark)
    (hd : Piece.isBasedDigit letter d = true) (hne : d ≠ '_') : d.toLower ∈ radix.digits := by
  have hrow : (digitSigns.all fun c =>
      !Piece.isBasedDigit radix.mark c || radix.digits.contains c.toLower) = true := by
    cases radix <;> decide
  have hown : ∀ c ∈ digitSigns, Piece.isBasedDigit radix.mark c = true →
      c.toLower ∈ radix.digits := by
    intro c hc hbased
    simpa [hbased] using List.all_eq_true.mp hrow c hc
  have hmark : radix.mark.toLower = radix.mark := by cases radix <;> rfl
  unfold Piece.isBasedDigit at hd hown
  rw [hletter] at hd
  rw [hmark] at hown
  by_cases hx : d.toLower = 'x'
  · simp [Radix.digits, hx]
  by_cases hz : d.toLower = 'z'
  · simp [Radix.digits, hz]
  by_cases hany : d = '?'
  · subst hany
    simp [Radix.digits]
  refine hown d (mem_digitSigns_of_isHexDigit ?_) hd
  simp only [hne, hx, hz, hany, decide_false, Bool.false_or] at hd
  cases radix with
  | binary =>
    simp only [Radix.mark, Bool.or_eq_true, decide_eq_true_eq] at hd
    rcases hd with rfl | rfl <;> decide
  | octal => exact isHexDigit_of_isOctalDigit hd
  | decimal =>
    rw [Piece.isHexDigit, Bool.or_eq_true]
    exact .inl hd
  | hex => exact hd

theorem mem_digits_of_kept {radix : Radix} (hletter : n.letter.toLower = radix.mark) :
    ∀ d ∈ n.kept, d ∈ radix.digits := by
  intro d hd
  obtain ⟨e, he, rfl⟩ := List.mem_map.mp hd
  obtain ⟨hmem, hne⟩ := List.mem_filter.mp he
  exact toLower_mem_digits hletter (n.digits_isBasedDigit e hmem) (by simpa using hne)

theorem basedDigits_eq_kept (n : SizedNumber) : basedDigits (n.space ++ n.digits) = n.kept := by
  have hspace : n.space.filter (fun c => c ≠ '_' && !Text.isBlank c) = [] := by
    rw [List.filter_eq_nil_iff]
    intro c hc
    simp [isBlank_of_isGap (n.space_isGap c hc)]
  have hdigits : n.digits.filter (fun c => c ≠ '_' && !Text.isBlank c) =
      withoutSeparators n.digits := by
    refine List.filter_congr fun c hc => ?_
    rw [isBlank_of_isBasedDigit (n.digits_isBasedDigit c hc), Bool.not_false, Bool.and_true]
  rw [basedDigits, List.filter_append, hspace, List.nil_append, hdigits]
  rfl

theorem radixNumber?_kept {radix : Radix} (hradix : radix? n.letter = some radix)
    (hne : n.kept ≠ []) (width : Option Nat) (signed : Bool) :
    radixNumber? width signed (n.letter :: (n.space ++ n.digits)) =
      some (.based width signed radix (String.ofList n.kept)) := by
  simp [radixNumber?, hradix, basedDigits_eq_kept, hne]

theorem basedNumber?_base {radix : Radix} (hradix : radix? n.letter = some radix)
    (hne : n.kept ≠ []) (width : Option Nat) :
    basedNumber? width n.base = some (.based width n.flag.isSome radix (String.ofList n.kept)) := by
  have hsign := isSignFlag_of_isRadix n.letter_isRadix
  have hflag := n.flag_isSignFlag
  unfold SizedNumber.base
  cases h : n.flag with
  | none =>
    rw [Option.toList_none, List.nil_append, basedNumber?, hsign]
    exact radixNumber?_kept hradix hne width false
  | some c =>
    rw [Option.toList_some, List.singleton_append, basedNumber?, if_pos (hflag c h)]
    exact radixNumber?_kept hradix hne width true

theorem basedText_base (n : SizedNumber) : Piece.BasedText n.base := by
  have hrest : ∀ d ∈ n.space ++ n.digits,
      Piece.isGap d = true ∨ Piece.isBasedDigit n.letter d = true := by
    intro d hd
    rcases List.mem_append.mp hd with hd | hd
    · exact .inl (n.space_isGap d hd)
    · exact .inr (n.digits_isBasedDigit d hd)
  have hflag := n.flag_isSignFlag
  unfold SizedNumber.base
  cases h : n.flag with
  | none => exact .plain n.letter_isRadix hrest
  | some c => exact .signed (hflag c h) n.letter_isRadix hrest

/-- The tick divides what stands before it from what stands behind it. -/
theorem splitAtTick?_size {size gap : List Char} (h : SizeText size gap) (tail : List Char) :
    splitAtTick? (size ++ (gap ++ '\'' :: tail)) = some (size ++ gap, tail) := by
  rw [← List.append_assoc]
  exact splitAtTick?_append (tick_not_mem_size h.size_isDecimal h.gap_isGap)

/-- The width of a size that fits. -/
theorem width?_size {size gap : List Char} (h : SizeText size gap) (hne : size ≠ [])
    (hfits : Piece.sizeFits size = true) :
    width? (withoutSeparators (Text.trim (size ++ gap))) =
      some (numeral 10 (withoutSeparators size)) := by
  have hdigits := List.all_eq_true.mp (all_isDigit h.size_isDecimal)
  rw [trim_size hne h.size_isDecimal h.gap_isGap, ← decimalValue_eq hdigits]
  cases h with
  | unsized => exact absurd rfl hne
  | sized hd hds _ => exact width?_eq hd hds hfits

theorem number?_sized {radix : Radix} (hfits : n.size ≠ [] → Piece.sizeFits n.size = true)
    (hradix : radix? n.letter = some radix) (hne : n.kept ≠ []) :
    number? n.text = some (.based n.width n.flag.isSome radix (String.ofList n.kept)) := by
  have hbase := basedNumber?_base hradix hne
  rw [number?, SizedNumber.text, splitAtTick?_size n.before]
  show tickNumber? (n.size ++ n.gap) n.base = _
  by_cases hsize : n.size = []
  · have hgap : n.gap = [] := by
      have hbefore := n.before
      rw [hsize] at hbefore
      generalize n.gap = gap at hbefore
      cases hbefore
      rfl
    rw [hsize, hgap, List.append_nil, tickNumber?_based (basedText_base n), hbase,
      SizedNumber.width, if_pos hsize]
  · have hwidth := width?_size n.before hsize (hfits hsize)
    have hwritten : withoutSeparators (Text.trim (n.size ++ n.gap)) ≠ [] := by
      intro hnil
      rw [hnil] at hwidth
      cases hwidth
    simp only [tickNumber?, List.isEmpty_iff, if_neg hwritten, hwidth, SizedNumber.width,
      if_neg hsize]
    exact hbase _

section Lexemes

variable {cs : List Char} {l : Lexeme}

/-- A plain decimal has the value of its digits. -/
theorem number?_of_intLiteral (hl : l ∈ Lexeme.ofText cs) (hkind : l.kind = some .intLiteral) :
    (∀ c ∈ l.text, Piece.isDecimal c = true) ∧ number? l.text = some (decimalLiteral l.text) := by
  obtain ⟨before, brackets, c, rest, -, rfl⟩ := Lexeme.exists_of_mem_scan hl
  obtain ⟨d, ds, htext, hd, hds⟩ := Piece.exists_digits_of_kind hkind
  rw [Lexeme.first, htext]
  exact ⟨isDecimal_digits hd hds, number?_decimal hd hds⟩

theorem number?_of_fillLiteral (hl : l ∈ Lexeme.ofText cs) (hkind : l.kind = some .fillLiteral) :
    ∃ d, l.text = ['\'', d] ∧ Piece.isFill d = true ∧ number? l.text = some (.fill d.toLower) := by
  obtain ⟨before, brackets, c, rest, -, rfl⟩ := Lexeme.exists_of_mem_scan hl
  obtain ⟨d, htext, hd⟩ := Piece.exists_fill_of_kind hkind
  rw [Lexeme.first, htext]
  exact ⟨d, rfl, hd, number?_fill hd⟩

/-- A number with a base has the width, the sign and the digits that are written. -/
theorem number?_of_sizedLiteral (hl : l ∈ Lexeme.ofText cs) (hkind : l.kind = some .sizedLiteral)
    (hclean : l.problems = []) :
    ∃ (n : SizedNumber) (radix : Radix), l.text = n.text ∧ n.letter.toLower = radix.mark ∧
      (∀ w ∈ n.width, w < UInt32.size) ∧ (∀ d ∈ n.kept, d ∈ radix.digits) ∧
      (n.kept ≠ [] → number? l.text =
        some (.based n.width n.flag.isSome radix (String.ofList n.kept))) := by
  obtain ⟨before, brackets, c, rest, -, rfl⟩ := Lexeme.exists_of_mem_scan hl
  obtain ⟨n, hfits, htext⟩ := Piece.exists_number_of_kind hkind hclean
  obtain ⟨radix, hradix, hletter⟩ := radix_of_isRadix n.letter_isRadix
  rw [Lexeme.first, htext]
  refine ⟨n, radix, rfl, hletter, ?_, mem_digits_of_kept hletter, number?_sized hfits hradix⟩
  intro w hw
  unfold SizedNumber.width at hw
  split at hw
  · cases hw
  next hne =>
    obtain rfl := Option.some.inj hw
    have hdigits := List.all_eq_true.mp (all_isDigit n.before.size_isDecimal)
    rw [← decimalValue_eq hdigits]
    simpa [Piece.sizeFits] using hfits hne

/-- Before the tick of a number with a base stands a width that fits, or none. -/
theorem exists_width_of_sizedLiteral (hl : l ∈ Lexeme.ofText cs)
    (hkind : l.kind = some .sizedLiteral) :
    ∃ size after, splitAtTick? l.text = some (size, after) ∧
      (withoutSeparators (Text.trim size) ≠ [] →
        ∃ w, width? (withoutSeparators (Text.trim size)) = some w) := by
  obtain ⟨before, brackets, c, rest, -, rfl⟩ := Lexeme.exists_of_mem_scan hl
  obtain ⟨size, gap, after, hsize, hfits, htext, -⟩ := Piece.exists_size_of_kind hkind
  rw [Lexeme.first, htext]
  refine ⟨size ++ gap, _, splitAtTick?_size hsize _, fun hwritten => ?_⟩
  have hne : size ≠ [] := by
    rintro rfl
    cases hsize
    exact hwritten rfl
  exact ⟨_, width?_size hsize hne (hfits hne)⟩

/-- A size that does not fit makes an error of the lexeme. -/
theorem kind_of_size {before size gap after : List Char}
    (hl : l ∈ Lexeme.ofText (before ++ (size ++ (gap ++ '\'' :: after))))
    (hstart : l.start = Text.byteLength before) (h : SizeText size gap) (hne : size ≠ [])
    (hbase : after.head?.any Piece.isBaseLetter = true) :
    l.kind = some (if numeral 10 (withoutSeparators size) < UInt32.size then .sizedLiteral
      else .error) := by
  have hdigits := List.all_eq_true.mp (all_isDigit h.size_isDecimal)
  rw [← decimalValue_eq hdigits]
  cases h with
  | unsized => exact absurd rfl hne
  | sized hd hds hgap =>
    obtain ⟨brackets, rfl⟩ := Lexeme.eq_first_of_start hl hstart
    refine (Piece.ofCons_of_size hd (.sized hd hds hgap) hbase).trans ?_
    simp [Piece.sizeFits]

end Lexemes

section Literals

variable {ctx : Context} {file : Nat} {f : SourceFile} {l : Lexeme} {v : Literal}

/-- A literal is lowered to this value in every session, and leaves it as it is. -/
def HasValue (ctx : Context) (span : Span) (v : Literal) : Prop :=
  ∀ s, Returns (expression ctx (.literal span)) s (.literal v) s

theorem hasValue_of_number? (hf : ctx.sources.file file = .ok f) (hl : l ∈ Lexeme.ofText f.chars)
    (hvalue : number? l.text = some v) : HasValue ctx ⟨file, l.start, l.stop⟩ v := by
  have hslice : f.slice? l.start l.stop = some (String.ofList l.text) := by
    rw [SourceFile.slice?, Lexeme.slice?_eq hl, Option.map_some]
  have hsnippet : ctx.sources.snippet ⟨file, l.start, l.stop⟩ = .ok (String.ofList l.text) := by
    simp only [Sources.snippet, hf, bind, Except.bind, hslice]
  intro s
  unfold expression numberLiteral
  rw [snippet_eq_pure hsnippet]
  have htext : Returns (ExceptT.lift (Pure.pure (String.ofList l.text) : SessionM String)) s
    (String.ofList l.text) s := rfl
  refine htext.bind ?_
  rw [String.toList_ofList, hvalue]
  rfl

/-- Numbers keep their values. A plain decimal that the lexer finds is lowered to the number it
says, a fill to its character, and a number with a base that has digits to the width, sign, base and
digits it is written with. The width of such a literal can always be read, since a size that needs
more than 32 bits makes an error of the lexeme. -/
theorem numbers_keep_values (hf : ctx.sources.file file = .ok f) :
    (∀ l ∈ Lexeme.ofText f.chars, l.diagnostics file = [] →
      (l.kind = some .intLiteral → (∀ c ∈ l.text, Piece.isDecimal c = true) ∧
        HasValue ctx ⟨file, l.start, l.stop⟩ (decimalLiteral l.text)) ∧
      (l.kind = some .fillLiteral → ∃ d, l.text = ['\'', d] ∧ Piece.isFill d = true ∧
        HasValue ctx ⟨file, l.start, l.stop⟩ (.fill d.toLower)) ∧
      (l.kind = some .sizedLiteral → ∃ (n : SizedNumber) (radix : Radix), l.text = n.text ∧
        n.letter.toLower = radix.mark ∧ (∀ w ∈ n.width, w < UInt32.size) ∧
        (∀ d ∈ n.kept, d ∈ radix.digits) ∧
        (n.kept ≠ [] → HasValue ctx ⟨file, l.start, l.stop⟩
          (.based n.width n.flag.isSome radix (String.ofList n.kept))))) ∧
    (∀ l ∈ Lexeme.ofText f.chars, l.kind = some .sizedLiteral →
      ∃ size after, splitAtTick? l.text = some (size, after) ∧
        (withoutSeparators (Text.trim size) ≠ [] →
          ∃ w, width? (withoutSeparators (Text.trim size)) = some w)) ∧
    ∀ l ∈ Lexeme.ofText f.chars, ∀ before size gap after,
      f.chars = before ++ (size ++ (gap ++ '\'' :: after)) → l.start = Text.byteLength before →
      SizeText size gap → size ≠ [] → after.head?.any Piece.isBaseLetter = true →
      l.kind = some (if numeral 10 (withoutSeparators size) < UInt32.size then .sizedLiteral
        else .error) := by
  refine ⟨fun l hl hclean => ⟨fun hkind => ?_, fun hkind => ?_, fun hkind => ?_⟩,
    fun l hl => exists_width_of_sizedLiteral hl, ?_⟩
  · obtain ⟨hdecimal, hvalue⟩ := number?_of_intLiteral hl hkind
    exact ⟨hdecimal, hasValue_of_number? hf hl hvalue⟩
  · obtain ⟨d, htext, hd, hvalue⟩ := number?_of_fillLiteral hl hkind
    exact ⟨d, htext, hd, hasValue_of_number? hf hl hvalue⟩
  · obtain ⟨n, radix, htext, hletter, hwidth, hdigits, hvalue⟩ :=
      number?_of_sizedLiteral hl hkind (List.map_eq_nil_iff.mp hclean)
    exact ⟨n, radix, htext, hletter, hwidth, hdigits,
      fun hne => hasValue_of_number? hf hl (hvalue hne)⟩
  · intro l hl before size gap after hcs hstart
    exact kind_of_size (hcs ▸ hl) hstart

/-- A thousand, written with a separator. -/
theorem hasValue_thousand :
    HasValue { sources := .ofList [("a.sv", " 1_000")] } ⟨0, 1, 6⟩ (.int 1000) := by
  have hlexemes : Lexeme.ofText " 1_000".toList =
      [⟨none, [' '], 0, []⟩, ⟨some .intLiteral, "1_000".toList, 1, []⟩] := by
    rfl
  have hf : (Sources.ofList [("a.sv", " 1_000")]).file 0 = .ok ⟨"a.sv", " 1_000"⟩ := rfl
  have hvalues := @numbers_keep_values { sources := .ofList [("a.sv", " 1_000")] } 0 _ hf
  have hl : (⟨some .intLiteral, "1_000".toList, 1, []⟩ : Lexeme) ∈ Lexeme.ofText " 1_000".toList := by
    rw [hlexemes]
    exact .tail _ (.head _)
  have hint := ((hvalues.1 _ hl rfl).1 rfl).2
  exact hint

end Literals

end Lowering

end Netlist
