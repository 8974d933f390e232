import Netlist.Lowering.Number
import Netlist.Proofs.Token.Lexing

/-!
Which literals have values. The lexer lets a base stand without digits after it, and lowering does
not: such a literal is bare. Every other number that the lexer finds nothing wrong with has a value.
-/
namespace Netlist.Lowering

open Netlist.Piece (BasedText NumberText)

/-- What may stand after the base of a literal without being a digit. -/
def isFiller (c : Char) : Bool := c = '_' || Piece.isGap c

/-- Whether nothing but filler follows the base; the text is what stands behind the tick. -/
def isBareTail (cs : List Char) : Bool :=
  match if cs.head?.any Piece.isSignFlag then cs.tail else cs with
  | [] => false
  | radix :: digits => Piece.isRadix radix && digits.all isFiller

/-- Whether a literal has a base and no digit after it. -/
def isBare (cs : List Char) : Bool :=
  match splitAtTick? cs with
  | none => false
  | some (_, tail) => isBareTail tail

theorem splitAtTick?_append {size tail : List Char} (h : '\'' ∉ size) :
    splitAtTick? (size ++ '\'' :: tail) = some (size, tail) := by
  have hall : ∀ c ∈ size, decide (c ≠ '\'') = true := by
    intro c hc
    rw [decide_eq_true_eq]
    rintro rfl
    exact h hc
  unfold splitAtTick?
  rw [List.takeWhile_append_of_pos hall, List.dropWhile_append_of_pos hall]
  simp

theorem radix?_of_isRadix {c : Char} (h : Piece.isRadix c = true) :
    ∃ radix, radix? c = some radix := by
  simp only [Piece.isRadix, Bool.or_eq_true, decide_eq_true_eq] at h
  rcases h with ((h | h) | h) | h <;> exact ⟨_, by simp only [radix?, h]; rfl⟩

theorem toLower_of_isFill {c : Char} (h : Piece.isFill c = true) :
    c.toLower = '0' ∨ c.toLower = '1' ∨ c.toLower = 'x' ∨ c.toLower = 'z' := by
  simp only [Piece.isFill, Bool.or_eq_true, decide_eq_true_eq] at h
  rcases h with ((rfl | rfl) | h) | h
  · exact .inl rfl
  · exact .inr (.inl rfl)
  · exact .inr (.inr (.inl h))
  · exact .inr (.inr (.inr h))

theorem isSignFlag_of_isRadix {c : Char} (h : Piece.isRadix c = true) :
    Piece.isSignFlag c = false := by
  simp only [Piece.isRadix, Bool.or_eq_true, decide_eq_true_eq] at h
  rcases h with ((h | h) | h) | h <;> simp [Piece.isSignFlag, h]

/-- Digits and letters lie between these code points, and no blank does. -/
private def isMiddle (c : Char) : Prop := 48 ≤ c.toNat ∧ c.toNat ≤ 122

private theorem isMiddle_of_toLower {c : Char} (h : isMiddle c.toLower) : isMiddle c := by
  unfold Char.toLower at h
  split at h
  next hupper =>
    have hlow : 65 ≤ c.toNat := UInt32.le_iff_toNat_le.mp hupper.1
    have hhigh : c.toNat ≤ 90 := UInt32.le_iff_toNat_le.mp hupper.2
    unfold isMiddle
    omega
  next => exact h

private theorem isMiddle_of_le {a b c : Char} (ha : a ≤ c) (hb : c ≤ b) (hlow : 48 ≤ a.toNat)
    (hhigh : b.toNat ≤ 122) : isMiddle c := by
  have hac : a.toNat ≤ c.toNat := UInt32.le_iff_toNat_le.mp ha
  have hcb : c.toNat ≤ b.toNat := UInt32.le_iff_toNat_le.mp hb
  unfold isMiddle
  omega

private theorem isMiddle_of_isDigit {c : Char} (h : c.isDigit = true) : isMiddle c := by
  simp only [Char.isDigit, Bool.and_eq_true, decide_eq_true_eq] at h
  exact isMiddle_of_le (a := '0') (b := '9') h.1 h.2 (by decide) (by decide)

private theorem isMiddle_of_isHexDigit {c : Char} (h : Piece.isHexDigit c = true) :
    isMiddle c := by
  simp only [Piece.isHexDigit, Bool.or_eq_true, Bool.and_eq_true, decide_eq_true_eq] at h
  rcases h with h | ⟨hlow, hhigh⟩
  · exact isMiddle_of_isDigit h
  · exact isMiddle_of_toLower (isMiddle_of_le hlow hhigh (by decide) (by decide))

private theorem isMiddle_of_isBasedDigit {radix d : Char}
    (h : Piece.isBasedDigit radix d = true) : isMiddle d := by
  unfold Piece.isBasedDigit at h
  simp only [Bool.or_eq_true, decide_eq_true_eq] at h
  rcases h with (((h | h) | h) | h) | h
  · subst h
    exact ⟨by decide, by decide⟩
  · exact isMiddle_of_toLower (by rw [h]; exact ⟨by decide, by decide⟩)
  · exact isMiddle_of_toLower (by rw [h]; exact ⟨by decide, by decide⟩)
  · subst h
    exact ⟨by decide, by decide⟩
  · split at h
    · simp only [Bool.or_eq_true, decide_eq_true_eq] at h
      rcases h with rfl | rfl <;> exact ⟨by decide, by decide⟩
    · simp only [Bool.and_eq_true, decide_eq_true_eq] at h
      exact isMiddle_of_le h.1 h.2 (by decide) (by decide)
    · exact isMiddle_of_isDigit h
    · exact isMiddle_of_isHexDigit h

private theorem isBlank_of_isMiddle {c : Char} (h : isMiddle c) : Text.isBlank c = false := by
  obtain ⟨hlow, hhigh⟩ := h
  simp only [Text.isBlank, Text.blankRanges, List.any_cons, List.any_nil, Bool.or_eq_false_iff,
    Bool.and_eq_false_iff, decide_eq_false_iff_not, and_true]
  omega

theorem isBlank_of_isGap {c : Char} (h : Piece.isGap c = true) :
    Text.isBlank c = true := by
  simp only [Piece.isGap, Bool.or_eq_true, decide_eq_true_eq] at h
  rcases h with rfl | rfl <;> decide

theorem isBlank_of_isBasedDigit {radix d : Char} (h : Piece.isBasedDigit radix d = true) :
    Text.isBlank d = false :=
  isBlank_of_isMiddle (isMiddle_of_isBasedDigit h)

/-- Among what follows a base just the gaps are blank. -/
private theorem isBlank_eq_isGap {radix d : Char}
    (h : Piece.isGap d = true ∨ Piece.isBasedDigit radix d = true) :
    Text.isBlank d = Piece.isGap d := by
  cases hgap : Piece.isGap d with
  | true => exact isBlank_of_isGap hgap
  | false =>
    have hdigit := h.resolve_left (by simp [hgap])
    exact isBlank_of_isBasedDigit hdigit

private theorem basedDigits_eq_nil_iff {radix : Char} {ds : List Char}
    (h : ∀ d ∈ ds, Piece.isGap d = true ∨ Piece.isBasedDigit radix d = true) :
    basedDigits ds = [] ↔ ds.all isFiller = true := by
  rw [basedDigits, List.map_eq_nil_iff, List.filter_eq_nil_iff, List.all_eq_true]
  apply forall₂_congr
  intro d hd
  rw [isBlank_eq_isGap (h d hd)]
  cases hgap : Piece.isGap d <;> simp [isFiller, hgap]

theorem radixNumber?_eq_none_iff {width : Option Nat} {signed : Bool} {radix : Char}
    {ds : List Char} (hradix : Piece.isRadix radix = true)
    (h : ∀ d ∈ ds, Piece.isGap d = true ∨ Piece.isBasedDigit radix d = true) :
    radixNumber? width signed (radix :: ds) = none ↔ ds.all isFiller = true := by
  obtain ⟨value, hvalue⟩ := radix?_of_isRadix hradix
  rw [← basedDigits_eq_nil_iff h]
  simp [radixNumber?, hvalue]

theorem basedNumber?_eq_none_iff {width : Option Nat} {tail : List Char} (h : BasedText tail) :
    basedNumber? width tail = none ↔ isBareTail tail = true := by
  cases h with
  | plain hradix hds =>
    have hflag := isSignFlag_of_isRadix hradix
    simp only [basedNumber?, isBareTail, List.head?_cons, Option.any_some, hflag,
      Bool.false_eq_true, if_false, hradix, Bool.true_and]
    exact radixNumber?_eq_none_iff hradix hds
  | signed hflag hradix hds =>
    simp only [basedNumber?, isBareTail, List.head?_cons, Option.any_some, hflag, if_true,
      List.tail_cons, hradix, Bool.true_and]
    exact radixNumber?_eq_none_iff hradix hds

private theorem isBlank_of_isDecimal {c : Char} (h : Piece.isDecimal c = true) :
    Text.isBlank c = false := by
  simp only [Piece.isDecimal, Bool.or_eq_true, decide_eq_true_eq] at h
  rcases h with h | rfl
  · exact isBlank_of_isMiddle (isMiddle_of_isDigit h)
  · decide

private theorem dropWhile_decimal {cs : List Char} (h : ∀ c ∈ cs, Piece.isDecimal c = true)
    (rest : List Char) (hne : cs ≠ []) :
    (cs ++ rest).dropWhile Text.isBlank = cs ++ rest := by
  cases cs with
  | nil => exact absurd rfl hne
  | cons c cs =>
    refine List.dropWhile_cons_of_neg ?_
    simp [isBlank_of_isDecimal (h c List.mem_cons_self)]

/-- Trimming a size takes away the gap behind it. -/
theorem trim_size {size gap : List Char} (hne : size ≠ [])
    (hsize : ∀ c ∈ size, Piece.isDecimal c = true) (hgap : ∀ c ∈ gap, Piece.isGap c = true) :
    Text.trim (size ++ gap) = size := by
  have hblank : ∀ c ∈ gap.reverse, Text.isBlank c = true := fun c hc =>
    isBlank_of_isGap (hgap c (List.mem_reverse.mp hc))
  have hback : size.reverse.dropWhile Text.isBlank = size.reverse := by
    have hall : ∀ c ∈ size.reverse, Piece.isDecimal c = true := fun c hc =>
      hsize c (List.mem_reverse.mp hc)
    simpa using dropWhile_decimal hall [] (by simpa using hne)
  rw [Text.trim, dropWhile_decimal hsize gap hne, List.reverse_append,
    List.dropWhile_append_of_pos hblank, hback, List.reverse_reverse]

theorem all_isDigit {cs : List Char} (h : ∀ c ∈ cs, Piece.isDecimal c = true) :
    (withoutSeparators cs).all Char.isDigit = true := by
  rw [List.all_eq_true]
  intro c hc
  obtain ⟨hmem, hne⟩ := List.mem_filter.mp hc
  have hdecimal := h c hmem
  simp only [Piece.isDecimal, Bool.or_eq_true, decide_eq_true_eq] at hdecimal
  exact hdecimal.resolve_right (by simpa using hne)

theorem withoutSeparators_digit {d : Char} {ds : List Char} (h : d.isDigit = true) :
    withoutSeparators (d :: ds) = d :: withoutSeparators ds := by
  refine List.filter_cons_of_pos ?_
  rw [decide_eq_true_eq]
  rintro rfl
  exact absurd h (by decide)

theorem withoutSeparators_append (a b : List Char) :
    withoutSeparators (a ++ b) = withoutSeparators a ++ withoutSeparators b := List.filter_append ..

/-- The mark of an exponent and its sign are no separators. -/
theorem withoutSeparators_exponent {mark : Char} {sign : List Char}
    (hmark : mark = 'e' ∨ mark = 'E') (hsign : sign = [] ∨ sign = ['+'] ∨ sign = ['-'])
    (ds : List Char) :
    withoutSeparators (mark :: (sign ++ ds)) = mark :: (sign ++ withoutSeparators ds) := by
  rcases hmark with rfl | rfl <;> rcases hsign with rfl | rfl | rfl <;> rfl

section Digits

variable {d : Char} {ds : List Char}

theorem isDecimal_digits (hd : d.isDigit = true)
    (hds : ∀ c ∈ ds, Piece.isDecimal c = true) :
    ∀ c ∈ d :: ds, Piece.isDecimal c = true := by
  intro c hc
  rcases List.mem_cons.mp hc with rfl | hc
  · simp [Piece.isDecimal, hd]
  · exact hds c hc

private theorem plainNumber?_ne_none (hd : d.isDigit = true)
    (hds : ∀ c ∈ ds, Piece.isDecimal c = true) : plainNumber? (d :: ds) ≠ none := by
  have hall := all_isDigit (isDecimal_digits hd hds)
  unfold plainNumber?
  rw [withoutSeparators_digit hd] at *
  simp only [hall, List.isEmpty_cons, Bool.not_true, Bool.or_self, Bool.false_eq_true, if_false]
  split <;> exact Option.some_ne_none _

theorem width?_eq (hd : d.isDigit = true) (hds : ∀ c ∈ ds, Piece.isDecimal c = true)
    (hfits : Piece.sizeFits (d :: ds) = true) :
    width? (withoutSeparators (d :: ds)) = some (Piece.decimalValue (d :: ds)) := by
  have hall := all_isDigit (isDecimal_digits hd hds)
  have hvalue : Piece.decimalValue (withoutSeparators (d :: ds)) =
      Piece.decimalValue (d :: ds) := by
    simp [Piece.decimalValue, withoutSeparators]
  have hfits : Piece.decimalValue (d :: ds) < UInt32.size := by simpa [Piece.sizeFits] using hfits
  have hplus : d ≠ '+' := by
    rintro rfl
    exact absurd hd (by decide)
  unfold width?
  rw [withoutSeparators_digit hd] at *
  simp only [List.head?_cons, Option.some.injEq, hplus, if_false, List.isEmpty_cons, hall, hvalue,
    hfits, Bool.not_true, Bool.or_self, Bool.false_eq_true, if_true]

end Digits

theorem tick_not_mem_size {size gap : List Char}
    (hsize : ∀ c ∈ size, Piece.isDecimal c = true) (hgap : ∀ c ∈ gap, Piece.isGap c = true) :
    '\'' ∉ size ++ gap := by
  intro hmem
  rcases List.mem_append.mp hmem with hmem | hmem
  · exact absurd (hsize _ hmem) (by decide)
  · exact absurd (hgap _ hmem) (by decide)

theorem splitAtTick?_decimal {cs : List Char} (h : ∀ c ∈ cs, Piece.isDecimal c = true) :
    splitAtTick? cs = none := by
  have hall : ∀ c ∈ cs, decide (c ≠ '\'') = true := by
    intro c hc
    rw [decide_eq_true_eq]
    rintro rfl
    exact absurd (h _ hc) (by decide)
  unfold splitAtTick?
  rw [List.dropWhile_eq_nil_iff.mpr hall]

/-- Behind a tick with no size before it, a base is read as such; a single letter is no fill. -/
theorem tickNumber?_based {tail : List Char} (h : BasedText tail) :
    tickNumber? [] tail = basedNumber? none tail := by
  have hfill {c : Char} (hradix : Piece.isRadix c = true) : Piece.isFill c = false := by
    by_contra hfill
    rw [Bool.not_eq_false] at hfill
    rcases toLower_of_isFill hfill with h | h | h | h <;> simp [Piece.isRadix, h] at hradix
  cases h with
  | @plain radix digits hradix hdigits =>
    cases digits with
    | nil => simp [tickNumber?, Text.trim, withoutSeparators, hfill hradix]
    | cons d ds => rfl
  | signed hflag hradix hdigits => rfl

/-- A number that the lexer finds nothing wrong with has a value unless it is bare. -/
theorem number?_eq_none_iff {cs : List Char} (h : NumberText cs) :
    number? cs = none ↔ isBare cs = true := by
  cases h with
  | @plain d ds hd hds =>
    have hnone := splitAtTick?_decimal (isDecimal_digits hd hds)
    simp [number?, isBare, hnone, plainNumber?_ne_none hd hds]
  | @fill c hc =>
    have hsplit : splitAtTick? ['\'', c] = some ([], [c]) := rfl
    have hnumber : tickNumber? [] [c] = some (.fill c.toLower) := by
      simp [tickNumber?, Text.trim, withoutSeparators, hc]
    have hbare : isBareTail [c] = false := by
      rcases toLower_of_isFill hc with h | h | h | h <;>
        simp [isBareTail, Piece.isSignFlag, Piece.isRadix, h]
    simp [number?, isBare, hsplit, hnumber, hbare]
  | @based tail htail =>
    have hsplit : splitAtTick? ('\'' :: tail) = some ([], tail) := rfl
    simp only [number?, isBare, hsplit, tickNumber?_based htail]
    exact basedNumber?_eq_none_iff htail
  | @sized d ds gap tail hd hds hfits hgap htail =>
    have hdecimal := isDecimal_digits hd hds
    have hwidth := width?_eq hd hds hfits
    have hne : (withoutSeparators (d :: ds)).isEmpty = false := by
      rw [withoutSeparators_digit hd, List.isEmpty_cons]
    simp only [number?, isBare, splitAtTick?_append (tick_not_mem_size hdecimal hgap), tickNumber?,
      trim_size (List.cons_ne_nil d ds) hdecimal hgap, hne, hwidth]
    exact basedNumber?_eq_none_iff htail

private theorem basedDigits_filler {ds : List Char} (h : ds.all isFiller = true) :
    basedDigits ds = [] := by
  rw [basedDigits, List.map_eq_nil_iff, List.filter_eq_nil_iff]
  intro d hd
  have hfiller := List.all_eq_true.mp h d hd
  simp only [isFiller, Bool.or_eq_true, decide_eq_true_eq] at hfiller
  rcases hfiller with rfl | hgap
  · decide
  · simp [isBlank_of_isGap hgap]

private theorem basedNumber?_bare {tail : List Char} (h : isBareTail tail = true)
    (width : Option Nat) : basedNumber? width tail = none := by
  have hradix {signed : Bool} {radix : Char} {ds : List Char} (hds : ds.all isFiller = true) :
      radixNumber? width signed (radix :: ds) = none := by
    simp [radixNumber?, basedDigits_filler hds]
  cases tail with
  | nil => rfl
  | cons c cs =>
    cases hflag : Piece.isSignFlag c with
    | true =>
      simp only [isBareTail, List.head?_cons, Option.any_some, hflag, if_true, List.tail_cons] at h
      simp only [basedNumber?, hflag, if_true]
      cases cs with
      | nil => rfl
      | cons d ds => exact hradix ((Bool.and_eq_true _ _).mp h).2
    | false =>
      simp only [isBareTail, List.head?_cons, Option.any_some, hflag, Bool.false_eq_true,
        if_false] at h
      simp only [basedNumber?, hflag, Bool.false_eq_true, if_false]
      exact hradix ((Bool.and_eq_true _ _).mp h).2

/-- No bare literal has a value, whatever stands before its tick. -/
theorem number?_of_isBare {cs : List Char} (h : isBare cs = true) : number? cs = none := by
  unfold isBare at h
  cases hsplit : splitAtTick? cs with
  | none =>
    rw [hsplit] at h
    cases h
  | some parts =>
    obtain ⟨size, tail⟩ := parts
    rw [hsplit] at h
    simp only [number?, hsplit, tickNumber?]
    split
    · split
      next c =>
        have hfill : Piece.isFill c = false := by
          by_contra hfill
          rw [Bool.not_eq_false] at hfill
          rcases toLower_of_isFill hfill with hc | hc | hc | hc <;>
            simp [isBareTail, Piece.isSignFlag, Piece.isRadix, hc] at h
        simp [hfill, basedNumber?_bare h]
      next => exact basedNumber?_bare h none
    · cases width? (withoutSeparators (Text.trim size)) with
      | none => rfl
      | some width => exact basedNumber?_bare h (some width)

end Netlist.Lowering
