import Netlist.Proofs.Text.Numerals
import Netlist.Proofs.Token.Strings

/-!
The values of strings. A value is put together from the units of a string, from left to right; a
unit that begins a code takes the digits behind it along. The lexer and the decoder agree on where
a string ends, so the decoder finds both quotes, and no backslash without a character behind it.
-/
namespace Netlist

namespace StringUnit

/-- The digits that a code takes from the units behind it, as many as stand there up to `most`, and
the units that are left. -/
inductive Code (p : Char → Bool) : Nat → List StringUnit → List Char → List StringUnit → Prop
  | full {us : List StringUnit} : Code p 0 us [] us
  | stop {most : Nat} {us : List StringUnit} :
      (∀ d h rest, us = .plain d h :: rest → p d = false) → Code p most us [] us
  | digit {most : Nat} {d : Char} {h : standsInString d = true} {us us' : List StringUnit}
      {ds : List Char} : p d = true → Code p most us ds us' →
      Code p (most + 1) (.plain d h :: us) (d :: ds) us'

/-- The letters that stand for control characters behind a backslash. -/
def controls : List (Char × Char) :=
  [('n', '\n'), ('t', '\t'), ('v', '\x0b'), ('f', '\x0c'), ('a', '\x07')]

/-- Whether a character behind a backslash stands for itself. -/
def isBare (c : Char) : Bool :=
  c ≠ 'x' && !Lowering.isOctalDigit c && !(controls.map Prod.fst).contains c

/-- The characters that the units of a string stand for. -/
inductive Denotes : List StringUnit → List Char → Prop
  | nil : Denotes [] []
  | plain {c : Char} {h : standsInString c = true} {us : List StringUnit} {cs : List Char} :
      Denotes us cs → Denotes (.plain c h :: us) (c :: cs)
  | control {letter c : Char} {us : List StringUnit} {cs : List Char} :
      (letter, c) ∈ controls → Denotes us cs → Denotes (.escaped letter :: us) (c :: cs)
  | hex {us us' : List StringUnit} {ds cs : List Char} :
      Code Piece.isHexDigit 2 us ds us' → Denotes us' cs →
      Denotes (.escaped 'x' :: us) (Char.ofNat (numeral 16 ds) :: cs)
  | octal {d : Char} {us us' : List StringUnit} {ds cs : List Char} :
      Lowering.isOctalDigit d = true → Code Lowering.isOctalDigit 2 us ds us' → Denotes us' cs →
      Denotes (.escaped d :: us) (Char.ofNat (numeral 8 (d :: ds)) :: cs)
  | bare {c : Char} {us : List StringUnit} {cs : List Char} :
      isBare c = true → Denotes us cs → Denotes (.escaped c :: us) (c :: cs)

namespace Code

variable {p : Char → Bool} {most : Nat} {us us' : List StringUnit} {ds : List Char}

theorem all (h : Code p most us ds us') : ∀ d ∈ ds, p d = true := by
  induction h with
  | full => nofun
  | stop => nofun
  | digit hd _ ih => exact List.forall_mem_cons.mpr ⟨hd, ih⟩

theorem length_le (h : Code p most us ds us') : us'.length ≤ us.length := by
  induction h with
  | full => exact Nat.le_refl _
  | stop => exact Nat.le_refl _
  | digit _ _ ih => exact Nat.le_succ_of_le ih

/-- A code takes the digits that the text of the units begins with. -/
theorem takeWhile_text (hp : p '\\' = false) (h : Code p most us ds us') :
    ((us.flatMap text).take most).takeWhile p = ds := by
  induction h with
  | full => rfl
  | @stop most us hstop =>
    cases most with
    | zero => rfl
    | succ most =>
      cases us with
      | nil => rfl
      | cons u us =>
        cases u with
        | plain d hd =>
          refine List.takeWhile_cons_of_neg ?_
          simp [hstop d hd us rfl]
        | escaped d =>
          refine List.takeWhile_cons_of_neg ?_
          simp [hp]
  | digit hd _ ih =>
    rw [List.flatMap_cons, text, List.singleton_append, List.take_succ_cons,
      List.takeWhile_cons_of_pos hd, ih]

/-- What a code leaves is the text of the units that are left. -/
theorem drop_text (h : Code p most us ds us') :
    (us.flatMap text).drop ds.length = us'.flatMap text := by
  induction h with
  | full => rfl
  | stop => rfl
  | digit hd _ ih => exact ih

theorem exists_code (p : Char → Bool) (most : Nat) (us : List StringUnit) :
    ∃ ds us', Code p most us ds us' := by
  induction most generalizing us with
  | zero => exact ⟨[], us, .full⟩
  | succ most ih =>
    cases us with
    | nil => exact ⟨[], [], .stop nofun⟩
    | cons u us =>
      cases u with
      | escaped c => exact ⟨[], _, .stop nofun⟩
      | plain d h =>
        cases hd : p d with
        | true =>
          obtain ⟨ds, us', hcode⟩ := ih us
          exact ⟨d :: ds, us', .digit hd hcode⟩
        | false =>
          refine ⟨[], _, .stop fun d' h' rest heq => ?_⟩
          cases heq
          exact hd

end Code

/-- Every string has a value. -/
theorem exists_denotes (us : List StringUnit) : ∃ cs, Denotes us cs := by
  induction hlength : us.length using Nat.strong_induction_on generalizing us with
  | _ n ih =>
    subst hlength
    cases us with
    | nil => exact ⟨[], .nil⟩
    | cons u us =>
      have hlater {us' : List StringUnit} (hle : us'.length ≤ us.length) :
          ∃ cs, Denotes us' cs :=
        ih us'.length (Nat.lt_succ_of_le hle) us' rfl
      obtain ⟨cs, hcs⟩ := hlater (Nat.le_refl _)
      cases u with
      | plain c h => exact ⟨c :: cs, .plain hcs⟩
      | escaped c =>
        by_cases hhex : c = 'x'
        · subst hhex
          obtain ⟨ds, us', hcode⟩ := Code.exists_code Piece.isHexDigit 2 us
          obtain ⟨cs', hcs'⟩ := hlater hcode.length_le
          exact ⟨_, .hex hcode hcs'⟩
        by_cases hoctal : Lowering.isOctalDigit c = true
        · obtain ⟨ds, us', hcode⟩ := Code.exists_code Lowering.isOctalDigit 2 us
          obtain ⟨cs', hcs'⟩ := hlater hcode.length_le
          exact ⟨_, .octal hoctal hcode hcs'⟩
        by_cases hcontrol : c ∈ controls.map Prod.fst
        · obtain ⟨⟨letter, control⟩, hmem, rfl⟩ := List.mem_map.mp hcontrol
          exact ⟨_, .control hmem hcs⟩
        · refine ⟨_, .bare ?_ hcs⟩
          simp only [Bool.not_eq_true] at hoctal
          simp [isBare, hhex, hoctal, List.contains_eq_mem, hcontrol]

end StringUnit

namespace Lowering

open StringUnit (Denotes quoted)

/-- The decoder with `dangling` in place of a backslash that nothing follows. -/
def unescapeOr (dangling : List Char) : (skip : Nat) → List Char → List Char
  | _, [] => []
  | skip + 1, _ :: cs => unescapeOr dangling skip cs
  | 0, c :: cs =>
    if c = '\\' then
      match cs with
      | [] => dangling
      | d :: rest =>
        let (value, used) := escape d rest
        value ++ unescapeOr dangling (used + 1) cs
    else c :: unescapeOr dangling 0 cs

/-- Taking the quotes away with `whole` in place of a text that lacks them. -/
def withoutQuotesOr (whole cs : List Char) : List Char :=
  match cs with
  | '"' :: rest => if rest.getLast? = some '"' then rest.dropLast else whole
  | _ => whole

/-- The value of a string with both exceptions left open. -/
def stringValueOr (whole dangling cs : List Char) : List Char :=
  unescapeOr dangling 0 (withoutQuotesOr whole cs)

theorem unescapeOr_backslash (skip : Nat) (cs : List Char) :
    unescapeOr ['\\'] skip cs = unescape skip cs := by
  fun_induction unescapeOr ['\\'] skip cs with
  | case1 => simp [unescape]
  | case2 skip c cs ih => simp [unescape, ih]
  | case3 => rfl
  | case4 d rest value used hescape ih => simp [unescape, hescape, ih]
  | case5 c cs hslash ih => simp [unescape, hslash, ih]

theorem stringValueOr_self (cs : List Char) :
    stringValueOr cs ['\\'] cs = stringValue cs :=
  unescapeOr_backslash 0 (withoutQuotes cs)

theorem escape_control {letter c : Char} (h : (letter, c) ∈ StringUnit.controls)
    (cs : List Char) : escape letter cs = ([c], 0) := by
  simp only [StringUnit.controls, List.mem_cons, Prod.mk.injEq, List.not_mem_nil, or_false] at h
  rcases h with ⟨rfl, rfl⟩ | ⟨rfl, rfl⟩ | ⟨rfl, rfl⟩ | ⟨rfl, rfl⟩ | ⟨rfl, rfl⟩ <;> rfl

theorem escape_octal {d : Char} (h : isOctalDigit d = true) (cs : List Char) :
    escape d cs = ([Char.ofNat (digitsValue 8 (d :: (cs.take 2).takeWhile isOctalDigit))],
      ((cs.take 2).takeWhile isOctalDigit).length) := by
  unfold escape
  split
  case h_7 => exact if_pos h
  all_goals exact absurd h (by decide)

theorem escape_bare {c : Char} (h : StringUnit.isBare c = true) (cs : List Char) :
    escape c cs = ([c], 0) := by
  unfold escape
  split
  case h_7 =>
    simp only [StringUnit.isBare, Bool.and_eq_true, Bool.not_eq_true'] at h
    exact if_neg (by simp [h.1.2])
  all_goals exact absurd h (by decide)

section Decoding

variable (dangling : List Char)

theorem unescapeOr_eq_drop (skip : Nat) (cs : List Char) :
    unescapeOr dangling skip cs = unescapeOr dangling 0 (cs.drop skip) := by
  induction cs generalizing skip with
  | nil => cases skip <;> rfl
  | cons c cs ih =>
    cases skip with
    | zero => rfl
    | succ skip => exact ih skip

theorem unescapeOr_cons {c : Char} (h : c ≠ '\\') (cs : List Char) :
    unescapeOr dangling 0 (c :: cs) = c :: unescapeOr dangling 0 cs := by
  simp only [unescapeOr, if_neg h]

/-- An escape stands for its value, and the decoder goes on behind it. -/
theorem unescapeOr_escape (d : Char) (us : List StringUnit) :
    unescapeOr dangling 0 ((StringUnit.escaped d :: us).flatMap StringUnit.text) =
      (escape d (us.flatMap StringUnit.text)).1 ++ unescapeOr dangling 0
        ((us.flatMap StringUnit.text).drop (escape d (us.flatMap StringUnit.text)).2) := by
  rw [List.flatMap_cons, StringUnit.text, List.cons_append, List.singleton_append]
  generalize us.flatMap StringUnit.text = cs
  have hlater := unescapeOr_eq_drop dangling ((escape d cs).2 + 1) (d :: cs)
  rw [List.drop_succ_cons] at hlater
  rw [← hlater]
  rfl

/-- The decoder gives what the units of a string stand for. -/
theorem unescapeOr_of_denotes {us : List StringUnit} {cs : List Char} (h : Denotes us cs) :
    unescapeOr dangling 0 (us.flatMap StringUnit.text) = cs := by
  induction h with
  | nil => rfl
  | @plain c hc us cs _ ih =>
    have hslash : c ≠ '\\' := by
      rintro rfl
      exact absurd hc (by decide)
    rw [List.flatMap_cons, StringUnit.text, List.singleton_append, unescapeOr_cons _ hslash, ih]
  | control hmem _ ih =>
    rw [unescapeOr_escape, escape_control hmem, List.drop_zero, ih]
    rfl
  | @hex us us' ds cs hcode _ ih =>
    have hdigits := hcode.takeWhile_text (by decide)
    have hescape : escape 'x' (us.flatMap StringUnit.text) =
        ([Char.ofNat (digitsValue 16 ds)], ds.length) := by
      rw [← hdigits]
      rfl
    rw [unescapeOr_escape, hescape, hcode.drop_text, ih, digitsValue_eq 16 hcode.all]
    rfl
  | @octal d us us' ds cs hd hcode _ ih =>
    have hdigits := hcode.takeWhile_text (by decide)
    have hall : ∀ e ∈ d :: ds, isOctalDigit e = true :=
      List.forall_mem_cons.mpr ⟨hd, hcode.all⟩
    have hvalue := digitsValue_eq 8 fun e he => isHexDigit_of_isOctalDigit (hall e he)
    rw [unescapeOr_escape, escape_octal hd, hdigits, hcode.drop_text, ih, hvalue]
    rfl
  | bare hbare _ ih =>
    rw [unescapeOr_escape, escape_bare hbare, List.drop_zero, ih]
    rfl

/-- A string has its quotes at both ends. -/
theorem withoutQuotesOr_quoted (whole : List Char) (us : List StringUnit) :
    withoutQuotesOr whole (quoted us) = us.flatMap StringUnit.text := by
  rw [quoted, withoutQuotesOr, if_pos List.getLast?_concat, List.dropLast_concat]

theorem stringValueOr_quoted {us : List StringUnit} {cs : List Char} (h : Denotes us cs)
    (whole : List Char) : stringValueOr whole dangling (quoted us) = cs := by
  rw [stringValueOr, withoutQuotesOr_quoted, unescapeOr_of_denotes dangling h]

end Decoding

theorem stringValue_eq_iff (us : List StringUnit) (cs : List Char) :
    stringValue (quoted us) = cs ↔ Denotes us cs := by
  constructor
  · rintro rfl
    obtain ⟨cs, hcs⟩ := StringUnit.exists_denotes us
    rwa [← stringValueOr_self, stringValueOr_quoted _ hcs]
  · intro h
    rw [← stringValueOr_self, stringValueOr_quoted _ h]

/-- No string is one of the exceptions. -/
theorem stringValueOr_eq (whole dangling : List Char) (us : List StringUnit) :
    stringValueOr whole dangling (quoted us) = stringValue (quoted us) :=
  stringValueOr_quoted dangling ((stringValue_eq_iff us _).mp rfl) whole

end Lowering

section Literals

open StringUnit (Denotes quoted)

/-- The tokens that are strings are written as such. -/
theorem Token.exists_units {file : Nat} {content : String} {t : Token}
    (ht : t ∈ (lex file content).1) (hkind : t.kind = .stringLiteral) :
    ∃ us, t.text.toList = quoted us := by
  rw [lex_tokens, List.mem_append] at ht
  rcases ht with ht | ht
  · obtain ⟨l, hl, htoken⟩ := List.mem_filterMap.mp ht
    obtain ⟨kind, hlexeme, rfl⟩ := Option.map_eq_some_iff.mp htoken
    obtain rfl : kind = .stringLiteral := hkind
    obtain ⟨before, brackets, c, rest, -, rfl⟩ := Lexeme.exists_of_mem_scan hl
    rw [String.toList_ofList]
    exact Piece.exists_units_of_kind hlexeme
  · obtain rfl := List.mem_singleton.mp ht
    cases hkind

/-- A text written as a string, where a lexeme begins, is one token and has no problem. -/
theorem Lexeme.eq_of_quoted {l : Lexeme} {before rest : List Char} {us : List StringUnit}
    (hl : l ∈ ofText (before ++ (quoted us ++ rest)))
    (hstart : l.start = Text.byteLength before) :
    l = ⟨some .stringLiteral, quoted us, Text.byteLength before, []⟩ := by
  have htext : quoted us ++ rest = '"' :: (us.flatMap StringUnit.text ++ '"' :: rest) := by
    simp [quoted]
  rw [htext] at hl
  obtain ⟨brackets, rfl⟩ := eq_first_of_start hl hstart
  rw [first, Piece.ofCons_quoted, ← htext, List.take_left]

/-- Strings are delimited and decoded alike. A token that is a string is a quote, units and a
quote; such a text is one token wherever one begins; and its value is what its units stand for,
found without either exception. -/
theorem strings_delimited_and_decoded (file : Nat) (content : String) :
    (∀ t ∈ (lex file content).1, t.kind = .stringLiteral → ∃ us, t.text.toList = quoted us) ∧
      (∀ l ∈ Lexeme.ofText content.toList, ∀ before us rest,
        content.toList = before ++ (quoted us ++ rest) → l.start = Text.byteLength before →
        l.problems = [] ∧ ⟨.stringLiteral, String.ofList (quoted us), l.start,
          l.start + Text.byteLength (quoted us)⟩ ∈ (lex file content).1) ∧
      ∀ us, Lowering.withoutQuotes (quoted us) = us.flatMap StringUnit.text ∧
        (∀ cs, Lowering.stringValue (quoted us) = cs ↔ Denotes us cs) ∧
        ∀ whole dangling, Lowering.stringValueOr whole dangling (quoted us) =
          Lowering.stringValue (quoted us) := by
  refine ⟨fun t => Token.exists_units, ?_, ?_⟩
  · intro l hl before us rest hcs hstart
    obtain rfl := Lexeme.eq_of_quoted (hcs ▸ hl) hstart
    refine ⟨rfl, ?_⟩
    rw [lex_tokens]
    exact List.mem_append_left _ (List.mem_filterMap.mpr ⟨_, hl, rfl⟩)
  · intro us
    have hquotes := Lowering.withoutQuotesOr_quoted (quoted us) us
    exact ⟨hquotes, Lowering.stringValue_eq_iff us,
      fun whole dangling => Lowering.stringValueOr_eq whole dangling us⟩

end Literals

end Netlist
