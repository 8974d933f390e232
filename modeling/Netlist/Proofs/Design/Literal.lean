import Mathlib
import Netlist.Design.Display
import Netlist.Lowering.StringValue
import Netlist.Proofs.Lowering.Number
import Netlist.Proofs.Token.Literals
import Netlist.Proofs.Token.Strings

/-!
Literals and their texts. What lowering makes of a literal can be read again from its text: numbers
have no separators and small letters, and a string is written with the escapes that strings are
read with. Reals must end with a digit, and strings must do without other escapes.
-/
namespace Netlist

open Lowering Piece

namespace Design

/-- The letter of a base. -/
def Radix.mark : Radix → Char
  | .binary => 'b'
  | .octal => 'o'
  | .decimal => 'd'
  | .hex => 'h'

theorem Radix.letter_eq (radix : Radix) : radix.letter = String.ofList [radix.mark] := by
  cases radix <;> rfl

theorem Radix.isRadix_mark (radix : Radix) : isRadix radix.mark = true := by
  cases radix <;> decide

theorem Radix.radix?_mark (radix : Radix) : radix? radix.mark = some radix := by
  cases radix <;> rfl

theorem Radix.mark_of_radix? {c : Char} {radix : Radix} (h : radix? c = some radix) :
    radix.mark.toLower = c.toLower := by
  unfold radix? at h
  split at h
  all_goals
    cases h
  all_goals
    rename_i hc
    rw [hc]
    rfl

end Design

/-- Characters that stand for themselves in quotes, or are written with an escape that strings are
read with. -/
def Text.isKept (c : Char) : Bool :=
  Text.quotedChar c = [c] || ['\t', '\n', '\\', '"'].contains c

namespace Design.Literal

/-- Reals end with a digit, and strings have only characters that are kept. -/
def isPortable : Literal → Bool
  | .real text => text.toList.getLast?.all Char.isDigit
  | .str text => text.toList.all Text.isKept
  | _ => true

/-- The digits of a number with a base: no separators, small letters. -/
structure IsDigit (radix : Radix) (d : Char) : Prop where
  digit : isBasedDigit radix.mark d = true
  separator : d ≠ '_'
  lower : d.toLower = d

/-- Literals that can be read from their texts. -/
inductive Readable : Literal → Prop
  | int {value : Nat} : value < UInt64.size → Readable (.int value)
  | based {width : Option Nat} {signed : Bool} {radix : Radix} {digits : List Char} :
      (∀ w ∈ width, w < UInt32.size) → digits ≠ [] → (∀ d ∈ digits, IsDigit radix d) →
      Readable (.based width signed radix (String.ofList digits))
  | fill {c : Char} : c ∈ ['0', '1', 'x', 'z'] → Readable (.fill c)
  | real {text : List Char} : RealText text → '_' ∉ text →
      text.getLast?.all Char.isDigit = true → Readable (.real (String.ofList text))
  | str {text : String} : (∀ c ∈ text.toList, Text.isKept c = true) → Readable (.str text)

section Values

variable {width : Option Nat} {signed : Bool} {radix c d : Char} {cs ds : List Char} {l : Literal}

private theorem isBasedDigit_congr {r r' : Char} (h : r.toLower = r'.toLower) :
    isBasedDigit r d = isBasedDigit r' d := by
  unfold isBasedDigit
  rw [h]

private theorem eq_of_toLower (h : d.toLower = '_') : d = '_' := by
  by_cases hupper : d.isUpper = true
  · have hlower : d.toLower.isLower = true := by
      rw [Char.isLower_toLower_eq_isAlpha, Char.isAlpha, hupper, Bool.true_or]
    rw [h] at hlower
    cases hlower
  · rwa [Char.toLower_eq_of_not_isUpper hupper] at h

private theorem toLower_of_isDigit (h : d.isDigit = true) : d.toLower = d := by
  refine Char.toLower_eq_of_not_isUpper ?_
  simp only [Char.isDigit, Char.isUpper, Bool.and_eq_true, decide_eq_true_eq] at h ⊢
  grind

private theorem isBasedDigit_toLower (h : isBasedDigit radix d = true) :
    isBasedDigit radix d.toLower = true := by
  unfold isBasedDigit at h ⊢
  rw [Char.toLower_toLower_eq_toLower]
  simp only [Bool.or_eq_true, decide_eq_true_eq] at h ⊢
  rcases h with (((rfl | h) | h) | rfl) | h
  · exact .inl (.inl (.inl (.inl rfl)))
  · exact .inl (.inl (.inl (.inr h)))
  · exact .inl (.inl (.inr h))
  · exact .inl (.inr rfl)
  · refine .inr ?_
    revert h
    split <;> intro h
    · simp only [Bool.or_eq_true, decide_eq_true_eq] at h ⊢
      rcases h with rfl | rfl <;> decide
    · have hdigit : d.isDigit = true := by
        simp only [Bool.and_eq_true, decide_eq_true_eq] at h
        simp only [Char.isDigit, Bool.and_eq_true, decide_eq_true_eq]
        exact ⟨h.1, UInt32.le_trans h.2 (by decide)⟩
      rwa [toLower_of_isDigit hdigit]
    · rwa [toLower_of_isDigit h]
    · simp only [isHexDigit, Bool.or_eq_true] at h ⊢
      rw [Char.toLower_toLower_eq_toLower]
      refine h.imp_left fun h => ?_
      rwa [toLower_of_isDigit h]

private theorem isDigit_of_mem_basedDigits {r : Radix} (hr : radix? radix = some r)
    (h : ∀ d ∈ ds, isGap d = true ∨ isBasedDigit radix d = true) :
    ∀ d ∈ basedDigits ds, IsDigit r d := by
  intro d' hd'
  obtain ⟨d, hd, rfl⟩ := List.mem_map.mp hd'
  obtain ⟨hmem, hkept⟩ := List.mem_filter.mp hd
  simp only [Bool.and_eq_true, decide_eq_true_eq, Bool.not_eq_true'] at hkept
  have hdigit : isBasedDigit radix d = true := by
    refine (h d hmem).resolve_left fun hgap => ?_
    rw [isBlank_of_isGap hgap] at hkept
    cases hkept.2
  refine ⟨?_, fun hlow => hkept.1 (eq_of_toLower hlow),
    Char.toLower_toLower_eq_toLower d⟩
  rw [isBasedDigit_congr (Radix.mark_of_radix? hr)]
  exact isBasedDigit_toLower hdigit

theorem readable_radixNumber? (hwidth : ∀ w ∈ width, w < UInt32.size)
    (hds : ∀ d ∈ ds, isGap d = true ∨ isBasedDigit radix d = true)
    (h : radixNumber? width signed (radix :: ds) = some l) : l.Readable := by
  simp only [radixNumber?, Option.bind_eq_bind, Option.bind_eq_some_iff] at h
  obtain ⟨r, hr, h⟩ := h
  split at h
  next => cases h
  next hne =>
    cases h
    exact .based hwidth (by simpa using hne) (isDigit_of_mem_basedDigits hr hds)

theorem readable_basedNumber? (hwidth : ∀ w ∈ width, w < UInt32.size) (hcs : BasedText cs)
    (h : basedNumber? width cs = some l) : l.Readable := by
  cases hcs with
  | plain hradix hds =>
    rw [basedNumber?, isSignFlag_of_isRadix hradix, if_neg Bool.false_ne_true] at h
    exact readable_radixNumber? hwidth hds h
  | signed hflag hradix hds =>
    rw [basedNumber?, if_pos hflag] at h
    exact readable_radixNumber? hwidth hds h

private theorem lt_of_width? {w : Nat} (h : width? cs = some w) : w < UInt32.size := by
  unfold width? at h
  generalize (if cs.head? = some '+' then cs.tail else cs) = digits at h
  dsimp only at h
  split at h
  next => cases h
  next =>
    split at h
    next hlt =>
      cases h
      exact hlt
    next => cases h

private theorem readable_plainNumber? (hcs : ∀ c ∈ cs, isDecimal c = true)
    (h : plainNumber? cs = some l) : l.Readable := by
  have hdigits : (withoutSeparators cs).all Char.isDigit = true := all_isDigit hcs
  unfold plainNumber? at h
  dsimp only at h
  split at h
  · cases h
  next hne =>
    split at h
    next hlt =>
      cases h
      exact .int hlt
    next =>
      cases h
      refine .based nofun ?_ fun d hd => ?_
      · rintro hnil
        simp [hnil] at hne
      · have hdigit : d.isDigit = true := List.all_eq_true.mp hdigits d hd
        refine ⟨?_, ?_, toLower_of_isDigit hdigit⟩
        · simp [isBasedDigit, Radix.mark, hdigit]
        · rintro rfl
          cases hdigit

/-- What lowering makes of a number. -/
theorem readable_number? (hcs : NumberText cs) (h : number? cs = some l) : l.Readable := by
  cases hcs with
  | plain hd hds =>
    have hdecimal := isDecimal_digits hd hds
    rw [number?, splitAtTick?_decimal hdecimal] at h
    exact readable_plainNumber? hdecimal h
  | @fill c hc =>
    have hvalue : number? ['\'', c] = some (.fill c.toLower) := by
      simp [number?, splitAtTick?, tickNumber?, Text.trim, withoutSeparators, hc]
    rw [hvalue] at h
    cases h
    refine .fill ?_
    rcases toLower_of_isFill hc with h | h | h | h <;> rw [h] <;> decide
  | @based tail htail =>
    have hsplit : splitAtTick? ('\'' :: tail) = some ([], tail) := rfl
    simp only [number?, hsplit, tickNumber?_based htail] at h
    exact readable_basedNumber? (by simp) htail h
  | @sized d ds gap tail hd hds hfits hgap htail =>
    have hdecimal := isDecimal_digits hd hds
    have hne : (withoutSeparators (d :: ds)).isEmpty = false := by
      rw [withoutSeparators_digit hd, List.isEmpty_cons]
    simp only [number?, splitAtTick?_append (tick_not_mem_size hdecimal hgap), tickNumber?,
      trim_size (List.cons_ne_nil d ds) hdecimal hgap, hne, Bool.false_eq_true, if_false,
      Option.bind_eq_bind, Option.bind_eq_some_iff] at h
    obtain ⟨w, hw, h⟩ := h
    refine readable_basedNumber? (fun w' hw' => ?_) htail h
    cases hw'
    exact lt_of_width? hw

/-- Without separators a real has the same shape. -/
private theorem realText_withoutSeparators (h : RealText cs) : RealText (withoutSeparators cs) := by
  cases h with
  | @mk d ds fraction exponent hd hds hfraction hexponent hne =>
    have hfilter {cs : List Char} (h : ∀ c ∈ cs, isDecimal c = true) :
        ∀ c ∈ withoutSeparators cs, isDecimal c = true := fun c hc =>
      h c (List.mem_filter.mp hc).1
    have hfraction' : IsFraction (withoutSeparators fraction) := by
      cases hfraction with
      | none => exact .none
      | @some d ds hd hds =>
        have hdot : withoutSeparators ('.' :: d :: ds) = '.' :: withoutSeparators (d :: ds) := rfl
        rw [hdot, withoutSeparators_digit hd]
        exact .some hd (hfilter hds)
    have hexponent' : IsExponent (withoutSeparators exponent) := by
      cases hexponent with
      | none => exact .none
      | @some mark sign ds hmark hsign hds =>
        rw [withoutSeparators_exponent hmark hsign]
        exact .some hmark hsign (hfilter hds)
    have hne' : withoutSeparators fraction ++ withoutSeparators exponent ≠ [] := by
      cases hfraction with
      | none =>
        cases hexponent with
        | none => exact absurd rfl hne
        | some hmark hsign hds => rcases hmark with rfl | rfl <;> exact List.cons_ne_nil _ _
      | some hd hds => exact List.cons_ne_nil _ _
    rw [withoutSeparators_digit hd, withoutSeparators_append, withoutSeparators_append]
    exact .mk hd (hfilter hds) hfraction' hexponent' hne'

theorem readable_real (hcs : RealText cs)
    (hport : (real (String.ofList (withoutSeparators cs))).isPortable = true) :
    (real (String.ofList (withoutSeparators cs))).Readable := by
  refine .real (realText_withoutSeparators hcs) (fun hmem => ?_) ?_
  · simpa using (List.mem_filter.mp hmem).2
  · rwa [isPortable, String.toList_ofList] at hport

theorem readable_str {text : String} (hport : (str text).isPortable = true) :
    (str text).Readable :=
  .str (List.all_eq_true.mp hport)

end Values

/-- What a token of this kind and text is read as. -/
inductive ReadAs : Kind → List Char → Literal → Prop
  | number {kind : Kind} {cs : List Char} {l : Literal} : kind.IsNumber → number? cs = some l →
      ReadAs kind cs l
  | real {cs : List Char} :
      ReadAs .realLiteral cs (.real (String.ofList (withoutSeparators cs)))
  | str {cs : List Char} : ReadAs .stringLiteral cs (.str (String.ofList (stringValue cs)))

theorem ReadAs.bracketsAfter_eq {kind : Kind} {cs : List Char} {l : Literal}
    (h : ReadAs kind cs l) : Lexeme.bracketsAfter 0 (some kind) = 0 := by
  cases h with
  | number hkind _ => rcases hkind with rfl | rfl | rfl <;> rfl
  | real => rfl
  | str => rfl

/-- A text that lexing finds before a delimiter, and that is read as the literal. -/
structure Spelled (l : Literal) (kind : Kind) (c : Char) (cs : List Char) : Prop where
  text : l.text = String.ofList (c :: cs)
  start : startsText c = true
  single : ∀ rest, Delimits rest → Single (some kind) c cs rest
  read : ReadAs kind (c :: cs) l

section Texts

variable {signed : Bool} {radix : Radix} {d : Char} {ds digits : List Char}

/-- The digits of a number in base ten. -/
private theorem exists_digits (n : Nat) :
    ∃ d ds, toString n = String.ofList (d :: ds) ∧ (∀ c ∈ d :: ds, c.isDigit = true) ∧
      decimalValue (d :: ds) = n := by
  have hdigits : ∀ c ∈ Nat.toDigits 10 n, c.isDigit = true := fun c hc =>
    Nat.isDigit_of_mem_toDigits (by decide) (by decide) hc
  have hvalue : decimalValue (Nat.toDigits 10 n) = n := by
    have hfilter : (Nat.toDigits 10 n).filter (· ≠ '_') = Nat.toDigits 10 n := by
      refine List.filter_eq_self.mpr fun c hc => ?_
      rw [decide_eq_true_eq]
      rintro rfl
      cases hdigits _ hc
    have hstep : (fun (n : Nat) (c : Char) => n * 10 + (c.toNat - 48)) =
        fun n c => 10 * n + (c.toNat - '0'.toNat) := by
      funext n c
      rw [Nat.mul_comm]
      rfl
    rw [decimalValue, hfilter, hstep]
    exact Nat.ofDigitChars_ten_toDigits
  obtain ⟨d, ds, hcons⟩ := List.exists_cons_of_ne_nil (Nat.toDigits_ne_nil (n := n) (b := 10))
  rw [hcons] at hdigits hvalue
  refine ⟨d, ds, ?_, hdigits, hvalue⟩
  rw [Nat.toString_eq_ofList_toDigits, hcons]

private theorem withoutSeparators_digits (h : ∀ c ∈ ds, c.isDigit = true) :
    withoutSeparators ds = ds := by
  refine List.filter_eq_self.mpr fun c hc => ?_
  rw [decide_eq_true_eq]
  rintro rfl
  cases h _ hc

private theorem isDecimal_of_digits (h : ∀ c ∈ ds, c.isDigit = true) :
    ∀ c ∈ ds, isDecimal c = true := fun c hc => isDecimal_of_isDigit (h c hc)

private theorem startsText_of_isDigit (h : d.isDigit = true) : startsText d = true := by
  simp [startsText, h]

theorem spelled_int {value : Nat} (h : value < UInt64.size) :
    ∃ kind c cs, (int value).Spelled kind c cs := by
  obtain ⟨d, ds, htext, hdigits, hvalue⟩ := exists_digits value
  have hd : d.isDigit = true := hdigits d List.mem_cons_self
  have hds : ∀ c ∈ ds, isDecimal c = true :=
    isDecimal_of_digits fun c hc => hdigits c (List.mem_cons_of_mem d hc)
  refine ⟨.intLiteral, d, ds, htext, startsText_of_isDigit hd, fun rest => single_int hd hds, ?_⟩
  refine .number (.inl rfl) ?_
  have hall : (d :: ds).all Char.isDigit = true := List.all_eq_true.mpr hdigits
  rw [number?, splitAtTick?_decimal (isDecimal_of_digits hdigits)]
  simp only [plainNumber?, withoutSeparators_digits hdigits, hall, hvalue, h, List.isEmpty_cons,
    Bool.not_true, Bool.or_self, Bool.false_eq_true, if_false, if_true]

/-- The flag of signed numbers. -/
def signFlag (signed : Bool) : List Char := if signed then ['s'] else []

private theorem signFlag_cases (signed : Bool) : signFlag signed = [] ∨ signFlag signed = ['s'] := by
  cases signed
  · exact .inl rfl
  · exact .inr rfl

theorem basedNumber?_spelled (width : Option Nat) (hne : digits ≠ [])
    (hdigits : ∀ d ∈ digits, IsDigit radix d) :
    basedNumber? width (signFlag signed ++ radix.mark :: digits) =
      some (.based width signed radix (String.ofList digits)) := by
  have hkept : basedDigits digits = digits := by
    have hfilter : (digits.filter fun c => c ≠ '_' && !Text.isBlank c) = digits := by
      refine List.filter_eq_self.mpr fun d hd => ?_
      simp [(hdigits d hd).separator, isBlank_of_isBasedDigit (hdigits d hd).digit]
    rw [basedDigits, hfilter, List.map_congr_left fun d hd => (hdigits d hd).lower, List.map_id']
  have hradix (signed : Bool) : radixNumber? width signed (radix.mark :: digits) =
      some (.based width signed radix (String.ofList digits)) := by
    simp [radixNumber?, radix.radix?_mark, hkept, hne]
  cases signed with
  | true => exact hradix true
  | false =>
    have hflag : isSignFlag radix.mark = false := isSignFlag_of_isRadix radix.isRadix_mark
    rw [signFlag, if_neg Bool.false_ne_true, List.nil_append, basedNumber?, hflag,
      if_neg Bool.false_ne_true, hradix]

private theorem text_based :
    (based none signed radix (String.ofList digits)).text =
      String.ofList ('\'' :: (signFlag signed ++ radix.mark :: digits)) := by
  rw [← String.toList_inj]
  cases signed <;> simp [text, signFlag, radix.letter_eq]

private theorem text_sized {width : Nat} {size : List Char}
    (hsize : toString width = String.ofList size) :
    (based (some width) signed radix (String.ofList digits)).text =
      String.ofList (size ++ '\'' :: (signFlag signed ++ radix.mark :: digits)) := by
  simp only [text]
  rw [hsize, ← String.toList_inj]
  cases signed <;> simp [signFlag, radix.letter_eq]

private theorem basedText_spelled (h : ∀ d ∈ digits, IsDigit radix d) :
    BasedText (signFlag signed ++ radix.mark :: digits) := by
  have hdigits : ∀ d ∈ digits, isGap d = true ∨ isBasedDigit radix.mark d = true := fun d hd =>
    .inr (h d hd).digit
  cases signed with
  | true => exact .signed rfl radix.isRadix_mark hdigits
  | false => exact .plain radix.isRadix_mark hdigits

theorem spelled_based (hne : digits ≠ []) (hdigits : ∀ d ∈ digits, IsDigit radix d) :
    ∃ kind c cs, (based none signed radix (String.ofList digits)).Spelled kind c cs := by
  have hsign : isSignFlag radix.mark = false := isSignFlag_of_isRadix radix.isRadix_mark
  refine ⟨.sizedLiteral, '\'', signFlag signed ++ radix.mark :: digits, text_based, rfl,
    fun rest => single_based _ (signFlag_cases signed) radix.isRadix_mark hsign hne fun d hd =>
      (hdigits d hd).digit, .number (.inr (.inl rfl)) ?_⟩
  have hsplit : splitAtTick? ('\'' :: (signFlag signed ++ radix.mark :: digits)) =
      some ([], signFlag signed ++ radix.mark :: digits) := rfl
  simp only [number?, hsplit, tickNumber?_based (basedText_spelled hdigits)]
  exact basedNumber?_spelled none hne hdigits

theorem spelled_sized {width : Nat} (hwidth : width < UInt32.size) (hne : digits ≠ [])
    (hdigits : ∀ d ∈ digits, IsDigit radix d) :
    ∃ kind c cs, (based (some width) signed radix (String.ofList digits)).Spelled kind c cs := by
  have hsign : isSignFlag radix.mark = false := isSignFlag_of_isRadix radix.isRadix_mark
  obtain ⟨d, ds, htext, hsize, hvalue⟩ := exists_digits width
  have hd : d.isDigit = true := hsize d List.mem_cons_self
  have hdecimal : ∀ c ∈ d :: ds, isDecimal c = true := isDecimal_of_digits hsize
  have hds : ∀ c ∈ ds, isDecimal c = true := fun c hc => hdecimal c (List.mem_cons_of_mem d hc)
  have hfits : sizeFits (d :: ds) = true := by
    rw [sizeFits, hvalue]
    exact decide_eq_true hwidth
  refine ⟨.sizedLiteral, d, ds ++ '\'' :: (signFlag signed ++ radix.mark :: digits),
    text_sized htext, startsText_of_isDigit hd, fun rest => single_sized _ hd hds hfits (signFlag_cases signed)
      radix.isRadix_mark hsign hne fun d hd => (hdigits d hd).digit, .number (.inr (.inl rfl)) ?_⟩
  have hgap : ∀ c ∈ ([] : List Char), isGap c = true := List.forall_mem_nil _
  have hticks := tick_not_mem_size hdecimal hgap
  have htrim := trim_size (List.cons_ne_nil d ds) hdecimal hgap
  rw [List.append_nil] at hticks htrim
  have hplus : d ≠ '+' := by
    rintro rfl
    cases hd
  have hall : (d :: ds).all Char.isDigit = true := List.all_eq_true.mpr hsize
  have hread : width? (d :: ds) = some width := by
    simp only [width?, List.head?_cons, Option.some.injEq, hplus, if_false, List.isEmpty_cons,
      hall, hvalue, hwidth, Bool.not_true, Bool.or_self, Bool.false_eq_true, if_true]
  rw [← List.cons_append]
  simp only [number?, splitAtTick?_append hticks, tickNumber?, htrim,
    withoutSeparators_digits hsize, List.isEmpty_cons, Bool.false_eq_true, if_false, hread]
  exact basedNumber?_spelled (some width) hne hdigits

theorem spelled_fill {c : Char} (h : c ∈ ['0', '1', 'x', 'z']) :
    ∃ kind c' cs, (fill c).Spelled kind c' cs := by
  have hclass : isFill c = true ∧ isBaseLetter c = false ∧
      number? ['\'', c] = some (.fill c) := by
    simp only [List.mem_cons, List.not_mem_nil, or_false] at h
    rcases h with rfl | rfl | rfl | rfl <;> decide
  obtain ⟨hfill, hbase, hread⟩ := hclass
  refine ⟨.fillLiteral, '\'', [c], ?_, rfl, fun rest _ => single_fill hfill hbase,
    .number (.inr (.inr rfl)) hread⟩
  rw [← String.toList_inj]
  simp [text]

theorem spelled_real {text : List Char} (htext : RealText text) (hplain : '_' ∉ text)
    (hlast : text.getLast?.all Char.isDigit = true) :
    ∃ kind c cs, (real (String.ofList text)).Spelled kind c cs := by
  have hread : ReadAs .realLiteral text (.real (String.ofList (withoutSeparators text))) := .real
  have hkept : withoutSeparators text = text := by
    refine List.filter_eq_self.mpr fun c hc => ?_
    rw [decide_eq_true_eq]
    rintro rfl
    exact hplain hc
  rw [hkept] at hread
  cases text with
  | nil => cases htext
  | cons c cs =>
    refine ⟨.realLiteral, c, cs, rfl, ?_, fun rest => single_real htext hlast, hread⟩
    cases htext with
    | mk hd _ _ _ _ => exact startsText_of_isDigit hd

end Texts

section Quotes

/-- How quoting writes the characters that are kept. -/
private theorem quotedChar_cases {c : Char} (h : Text.isKept c = true) :
    (Text.quotedChar c = [c] ∧ c ≠ '\\' ∧ standsInString c = true) ∨
      ∃ d, Text.quotedChar c = ['\\', d] ∧ ∀ cs, escape d cs = ([c], 0) := by
  simp only [Text.isKept, Bool.or_eq_true, decide_eq_true_eq, List.contains_iff_mem] at h
  rcases h with h | h
  · have hother (d : Char) (hd : Text.quotedChar d ≠ [d]) : c ≠ d := fun hcd => hd (hcd ▸ h)
    have hslash : c ≠ '\\' := hother _ (by decide)
    have hbreak : ¬ (c = '\n' || c = '\x00') = true := by
      simp [hother '\n' (by decide), hother '\x00' (by decide)]
    exact .inl ⟨h, hslash, standsInString_of hslash (hother _ (by decide)) hbreak⟩
  · simp only [List.mem_cons, List.not_mem_nil, or_false] at h
    rcases h with rfl | rfl | rfl | rfl
    · exact .inr ⟨'t', rfl, fun _ => rfl⟩
    · exact .inr ⟨'n', rfl, fun _ => rfl⟩
    · exact .inr ⟨'\\', rfl, fun _ => rfl⟩
    · exact .inr ⟨'"', rfl, fun _ => rfl⟩

private theorem unescape_plain {c : Char} (hslash : c ≠ '\\') (cs : List Char) :
    unescape 0 (c :: cs) = c :: unescape 0 cs := by
  simp [unescape, hslash]

theorem stringTail_quoted {cs : List Char} (h : ∀ c ∈ cs, Text.isKept c = true)
    (rest : List Char) :
    stringTail (cs.flatMap Text.quotedChar ++ '"' :: rest) =
      ((cs.flatMap Text.quotedChar).length + 1, true) := by
  induction cs with
  | nil => rfl
  | cons c cs ih =>
    have hcs := ih fun d hd => h d (List.mem_cons_of_mem c hd)
    rw [List.flatMap_cons]
    rcases quotedChar_cases (h c List.mem_cons_self) with ⟨hc, -, hstands⟩ | ⟨d, hc, -⟩
    · rw [hc, List.singleton_append, List.cons_append, stringTail_plain hstands, hcs]
      rfl
    · rw [hc]
      simp only [List.cons_append, List.nil_append, stringTail, hcs]
      rfl

theorem unescape_quoted {cs : List Char} (h : ∀ c ∈ cs, Text.isKept c = true) :
    unescape 0 (cs.flatMap Text.quotedChar) = cs := by
  induction cs with
  | nil => rfl
  | cons c cs ih =>
    have hcs := ih fun d hd => h d (List.mem_cons_of_mem c hd)
    rw [List.flatMap_cons]
    rcases quotedChar_cases (h c List.mem_cons_self) with ⟨hc, hslash, -⟩ | ⟨d, hc, hd⟩
    · rw [hc, List.singleton_append, unescape_plain hslash, hcs]
    · rw [hc]
      simp only [List.cons_append, List.nil_append, unescape, hd, if_true, hcs]

theorem spelled_str {text : String} (h : ∀ c ∈ text.toList, Text.isKept c = true) :
    ∃ kind c cs, (str text).Spelled kind c cs := by
  have hread : ReadAs .stringLiteral ('"' :: (text.toList.flatMap Text.quotedChar ++ ['"'])) _ := .str
  have hvalue : stringValue ('"' :: (text.toList.flatMap Text.quotedChar ++ ['"'])) =
      text.toList := by
    rw [stringValue, withoutQuotes, List.getLast?_concat, if_pos rfl, List.dropLast_concat,
      unescape_quoted h]
  rw [hvalue, String.ofList_toList] at hread
  refine ⟨.stringLiteral, '"', _, rfl, rfl, fun rest _ => ?_, hread⟩
  have htail := stringTail_quoted h rest
  rw [Single, List.append_assoc, List.singleton_append, ofCons_quote (by rw [htail]), htail,
    List.length_cons, List.length_append, Nat.add_comm]
  rfl

end Quotes

theorem Readable.exists_spelled {l : Literal} (h : l.Readable) :
    ∃ kind c cs, l.Spelled kind c cs := by
  cases h with
  | int hvalue => exact spelled_int hvalue
  | @based width signed radix digits hwidth hne hdigits =>
    cases width with
    | none => exact spelled_based hne hdigits
    | some w => exact spelled_sized (hwidth w rfl) hne hdigits
  | fill hc => exact spelled_fill hc
  | real htext hplain hlast => exact spelled_real htext hplain hlast
  | str htext => exact spelled_str htext

end Design.Literal

end Netlist
