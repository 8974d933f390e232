import Netlist.Proofs.Lowering.Number
import Netlist.Proofs.Token.Shapes

/-!
What reals are without separators. The lexer takes the dot of a fraction only if a digit follows,
and the mark of an exponent in any case. So a real is a number, unless its exponent was left
without digits.
-/
namespace Netlist

open Lowering (withoutSeparators)

namespace Piece

/-- One or more digits. -/
structure IsDigits (cs : List Char) : Prop where
  nonempty : cs ≠ []
  digits : ∀ c ∈ cs, c.isDigit = true

/-- The start of an exponent, with or without a sign. -/
inductive ExponentMark : List Char → Prop
  | mk {mark : Char} {sign : List Char} : mark = 'e' ∨ mark = 'E' →
      sign = [] ∨ sign = ['+'] ∨ sign = ['-'] → ExponentMark (mark :: sign)

/-- Numbers with a fraction, an exponent or both. -/
inductive RealNumber : List Char → Prop
  | fraction {whole part : List Char} : IsDigits whole → IsDigits part →
      RealNumber (whole ++ '.' :: part)
  | exponent {whole mark power : List Char} : IsDigits whole → ExponentMark mark →
      IsDigits power → RealNumber (whole ++ (mark ++ power))
  | both {whole part mark power : List Char} : IsDigits whole → IsDigits part →
      ExponentMark mark → IsDigits power → RealNumber (whole ++ '.' :: (part ++ (mark ++ power)))

/-- Numbers whose exponent ends before its digits. -/
inductive UnfinishedReal : List Char → Prop
  | plain {whole mark : List Char} : IsDigits whole → ExponentMark mark →
      UnfinishedReal (whole ++ mark)
  | fraction {whole part mark : List Char} : IsDigits whole → IsDigits part →
      ExponentMark mark → UnfinishedReal (whole ++ '.' :: (part ++ mark))

/-- Whether the last character is a digit. -/
def endsInDigit (cs : List Char) : Bool := cs.getLast?.any Char.isDigit

variable {cs ds : List Char}

theorem IsDigits.endsInDigit (h : IsDigits ds) (front : List Char) :
    endsInDigit (front ++ ds) = true := by
  obtain ⟨rest, d, rfl⟩ := List.eq_nil_or_concat ds |>.resolve_left h.nonempty
  have hd : d.isDigit = true := h.digits d (by simp)
  simp [Piece.endsInDigit, hd]

theorem ExponentMark.endsInDigit (h : ExponentMark cs) (front : List Char) :
    endsInDigit (front ++ cs) = false := by
  obtain ⟨hmark, hsign⟩ := h
  rcases hmark with rfl | rfl <;> rcases hsign with rfl | rfl | rfl <;>
    simp [Piece.endsInDigit]

theorem RealNumber.endsInDigit (h : RealNumber cs) : endsInDigit cs = true := by
  cases h with
  | @fraction whole part _ hpart =>
    have hlast := hpart.endsInDigit (whole ++ ['.'])
    rwa [List.append_assoc] at hlast
  | @exponent whole mark power _ _ hpower =>
    have hlast := hpower.endsInDigit (whole ++ mark)
    rwa [List.append_assoc] at hlast
  | @both whole part mark power _ _ _ hpower =>
    have hlast := hpower.endsInDigit (whole ++ '.' :: (part ++ mark))
    simpa using hlast

theorem UnfinishedReal.endsInDigit (h : UnfinishedReal cs) : endsInDigit cs = false := by
  cases h with
  | @plain whole mark _ hmark => exact hmark.endsInDigit whole
  | @fraction whole part mark _ _ hmark =>
    have hlast := hmark.endsInDigit (whole ++ '.' :: part)
    simpa using hlast

end Piece

namespace Lowering

open Piece

variable {cs ds : List Char} {d : Char}

theorem nil_or_isDigits (h : ∀ c ∈ ds, isDecimal c = true) :
    withoutSeparators ds = [] ∨ IsDigits (withoutSeparators ds) := by
  by_cases hnil : withoutSeparators ds = []
  · exact .inl hnil
  · exact .inr ⟨hnil, List.all_eq_true.mp (all_isDigit h)⟩

theorem isDigits_withoutSeparators (hd : d.isDigit = true) (hds : ∀ c ∈ ds, isDecimal c = true) :
    IsDigits (withoutSeparators (d :: ds)) := by
  refine (nil_or_isDigits (isDecimal_digits hd hds)).resolve_left ?_
  rw [withoutSeparators_digit hd]
  exact List.cons_ne_nil _ _

/-- An exponent has its digits or is unfinished. -/
theorem exponent_or_unfinished (h : IsExponent cs) (hne : cs ≠ []) :
    (∃ mark power, ExponentMark mark ∧ IsDigits power ∧ withoutSeparators cs = mark ++ power) ∨
      ExponentMark (withoutSeparators cs) := by
  cases h with
  | none => exact absurd rfl hne
  | @some mark sign ds hmark hsign hds =>
    have hbegins : ExponentMark (mark :: sign) := .mk hmark hsign
    rw [withoutSeparators_exponent hmark hsign]
    rcases nil_or_isDigits hds with hnil | hpower
    · rw [hnil, List.append_nil]
      exact .inr hbegins
    · exact .inl ⟨_, _, hbegins, hpower, rfl⟩

/-- A real is a number or has an unfinished exponent. -/
theorem real_or_unfinished (h : RealText cs) :
    RealNumber (withoutSeparators cs) ∨ UnfinishedReal (withoutSeparators cs) := by
  obtain @⟨d, ds, fraction, exponent, hd, hds, hfraction, hexponent, hne⟩ := h
  have hwhole := isDigits_withoutSeparators hd hds
  rw [← List.cons_append, withoutSeparators_append, withoutSeparators_append]
  cases hfraction with
  | none =>
    show RealNumber (_ ++ withoutSeparators exponent) ∨
      UnfinishedReal (_ ++ withoutSeparators exponent)
    obtain ⟨mark, power, hmark, hpower, htext⟩ | hmark := exponent_or_unfinished hexponent hne
    · rw [htext]
      exact .inl (.exponent hwhole hmark hpower)
    · exact .inr (.plain hwhole hmark)
  | @some d ds hd hds =>
    have hpart := isDigits_withoutSeparators hd hds
    have hdot : withoutSeparators ('.' :: d :: ds) = '.' :: withoutSeparators (d :: ds) := rfl
    rw [hdot, List.cons_append]
    by_cases hplain : exponent = []
    · subst hplain
      have hnil : withoutSeparators [] = [] := rfl
      rw [hnil, List.append_nil]
      exact .inl (.fraction hwhole hpart)
    · obtain ⟨mark, power, hmark, hpower, htext⟩ | hmark :=
        exponent_or_unfinished hexponent hplain
      · rw [htext]
        exact .inl (.both hwhole hpart hmark hpower)
      · exact .inr (.fraction hwhole hpart hmark)

/-- A real is a number exactly if its exponent is finished. -/
theorem realNumber_iff (h : RealText cs) :
    RealNumber (withoutSeparators cs) ↔ ¬ UnfinishedReal (withoutSeparators cs) := by
  refine ⟨fun hnumber hunfinished => ?_, (real_or_unfinished h).resolve_right⟩
  have hlast := hunfinished.endsInDigit
  rw [hnumber.endsInDigit] at hlast
  cases hlast

end Lowering

end Netlist
