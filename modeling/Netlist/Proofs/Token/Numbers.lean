import Netlist.Proofs.Lowering.Number
import Netlist.Proofs.Token.Literals

/-!
The parts of number literals, one sort after the other. Plain decimals are digits and separators, and
a fill is a tick and one character. A number with a base has a size before its tick, perhaps with a
gap behind it, or nothing; behind the tick stand a sign flag, the letter of the base and digits. A
size that needs more than 32 bits makes the lexeme an error.
-/
namespace Netlist.Piece

variable {openBrackets : Nat} {c : Char} {cs size gap after : List Char}

/-- What may stand before the tick of a number with a base. -/
inductive SizeText : List Char → List Char → Prop
  | unsized : SizeText [] []
  | sized {d : Char} {ds gap : List Char} : d.isDigit = true →
      (∀ c ∈ ds, isDecimal c = true) → (∀ c ∈ gap, isGap c = true) → SizeText (d :: ds) gap

namespace SizeText

theorem size_isDecimal (h : SizeText size gap) : ∀ c ∈ size, isDecimal c = true := by
  cases h with
  | unsized => nofun
  | sized hd hds _ => exact List.forall_mem_cons.mpr ⟨isDecimal_of_isDigit hd, hds⟩

theorem gap_isGap (h : SizeText size gap) : ∀ c ∈ gap, isGap c = true := by
  cases h with
  | unsized => nofun
  | sized _ _ hgap => exact hgap

/-- The size ends at the gap or the tick. -/
theorem takeWhile_size (h : SizeText size gap) (after : List Char) :
    (size ++ (gap ++ '\'' :: after)).takeWhile isDecimal = size := by
  refine Ends.takeWhile_append ?_ h.size_isDecimal
  intro r hr
  cases gap with
  | nil =>
    cases hr
    decide
  | cons d ds =>
    cases hr
    have hgap := h.gap_isGap r List.mem_cons_self
    simp only [isGap, Bool.or_eq_true, decide_eq_true_eq] at hgap
    rcases hgap with rfl | rfl <;> decide

end SizeText

/-- A size before a base: the lexeme is a number if the size fits, and an error if not. -/
theorem number_of_size (h : SizeText size gap) (hbase : after.head?.any isBaseLetter = true) :
    number (size ++ (gap ++ '\'' :: after)) =
      { kind := some (if sizeFits size then .sizedLiteral else .error)
        width := size.length + gap.length + 1 + (basedTail after).1
        problems := (if (basedTail after).2 then [] else [.missingBase]) ++
          (if sizeFits size then [] else [.wideSize]) } := by
  have hgap : (gap ++ '\'' :: after).takeWhile isGap = gap := by
    refine Ends.takeWhile_append (fun r hr => ?_) h.gap_isGap
    cases hr
    decide
  have hbegins : beginsBased ('\'' :: after) = true := by
    cases after with
    | nil => cases hbase
    | cons letter rest => exact hbase
  have htail : (gap ++ '\'' :: after).drop (gap.length + 1) = after := by
    rw [← List.drop_drop, List.drop_left, List.drop_one, List.tail_cons]
  simp only [number, h.takeWhile_size, List.drop_left, hgap, hbegins, if_true, htail]

theorem ofCons_of_size (hc : c.isDigit = true)
    (h : SizeText (c :: cs) gap) (hbase : after.head?.any isBaseLetter = true) :
    (ofCons openBrackets c (cs ++ (gap ++ '\'' :: after))).kind =
      some (if sizeFits (c :: cs) then .sizedLiteral else .error) := by
  rw [ofCons_digit hc, ← List.cons_append, number_of_size h hbase]

/-- A plain decimal is as long as its digits go on. -/
theorem take_of_intLiteral (hc : c.isDigit = true)
    (hkind : (number (c :: cs)).kind = some .intLiteral) :
    (c :: cs).take (number (c :: cs)).width = c :: cs.takeWhile isDecimal := by
  have hhead : (c :: cs).takeWhile isDecimal = c :: cs.takeWhile isDecimal :=
    List.takeWhile_cons_of_pos (isDecimal_of_isDigit hc)
  unfold number at *
  dsimp only at *
  split at hkind
  next =>
    dsimp only at hkind
    split at hkind <;> cases hkind
  next hplain =>
    rw [if_neg hplain]
    dsimp only at hkind ⊢
    split at hkind
    next hzero => rw [Nat.add_assoc, hzero, Nat.add_zero, take_takeWhile, hhead]
    next => cases hkind

/-- The sort of a piece that is a number of this kind. -/
theorem begins_of_isNumber {kind : Kind} (hkind : (ofCons openBrackets c cs).kind = some kind)
    (hnumber : kind.isApart = true) (herror : kind ≠ .error) :
    (c.isDigit = true ∧ ofCons openBrackets c cs = number (c :: cs)) ∨
      (c = '\'' ∧ cs.head?.any isBaseLetter = true ∧ kind = .sizedLiteral ∧
        ofCons openBrackets c cs = {
          kind := some .sizedLiteral
          width := 1 + (basedTail cs).1
          problems := if (basedTail cs).2 then [] else [.missingBase] }) ∨
      c = '\'' ∧ cs.head?.any isFill = true ∧ kind = .fillLiteral ∧
        ofCons openBrackets c cs = { kind := some .fillLiteral, width := 2 } := by
  have hbegins := begins_ofCons openBrackets c cs
  generalize ofCons openBrackets c cs = piece at *
  cases hbegins with
  | between hnone => simp [hnone] at hkind
  | plain hplain hapart =>
    rw [hplain, Option.some_inj] at hkind
    subst hkind
    rw [hapart] at hnumber
    cases hnumber
  | flawed hflawed _ _ =>
    rw [hflawed, Option.some_inj] at hkind
    exact absurd hkind.symm herror
  | digits hdigit => exact .inl ⟨hdigit, rfl⟩
  | based htick hletter => exact .inr (.inl ⟨htick, hletter, (Option.some.inj hkind).symm, rfl⟩)
  | fill htick hfill => exact .inr (.inr ⟨htick, hfill, (Option.some.inj hkind).symm, rfl⟩)

theorem exists_digits_of_kind (hkind : (ofCons openBrackets c cs).kind = some .intLiteral) :
    ∃ d ds, (c :: cs).take (ofCons openBrackets c cs).width = d :: ds ∧ d.isDigit = true ∧
      ∀ e ∈ ds, isDecimal e = true := by
  rcases begins_of_isNumber hkind rfl nofun with ⟨hdigit, hpiece⟩ | ⟨-, -, hother, -⟩ |
    ⟨-, -, hother, -⟩
  · rw [hpiece] at hkind ⊢
    exact ⟨c, cs.takeWhile isDecimal, take_of_intLiteral hdigit hkind, hdigit,
      fun _ => List.mem_takeWhile_imp⟩
  · cases hother
  · cases hother

theorem exists_fill_of_kind (hkind : (ofCons openBrackets c cs).kind = some .fillLiteral) :
    ∃ d, (c :: cs).take (ofCons openBrackets c cs).width = ['\'', d] ∧ isFill d = true := by
  rcases begins_of_isNumber hkind rfl nofun with ⟨hdigit, hpiece⟩ | ⟨-, -, hother, -⟩ |
    ⟨rfl, hfill, -, hpiece⟩
  · rw [hpiece] at hkind
    rcases kind_number (c :: cs) with h | h | h | ⟨h, -⟩ <;> simp [h] at hkind
  · cases hother
  · rw [hpiece]
    cases cs with
    | nil => cases hfill
    | cons d ds => exact ⟨d, rfl, by simpa using hfill⟩

theorem takeWhile_append_drop (p : Char → Bool) (cs : List Char) :
    cs.takeWhile p ++ cs.drop (cs.takeWhile p).length = cs := by
  have hboth := List.take_append_drop (cs.takeWhile p).length cs
  rwa [take_takeWhile] at hboth

/-- A number with a base and a size has a tick behind its size. -/
theorem exists_size_of_number (hc : c.isDigit = true)
    (hkind : (number (c :: cs)).kind = some .sizedLiteral) :
    ∃ size gap after, SizeText size gap ∧ after.head?.any isBaseLetter = true ∧
      c :: cs = size ++ (gap ++ '\'' :: after) := by
  have hsize := takeWhile_append_drop isDecimal (c :: cs)
  have hhead : (c :: cs).takeWhile isDecimal = c :: cs.takeWhile isDecimal :=
    List.takeWhile_cons_of_pos (isDecimal_of_isDigit hc)
  unfold number at hkind
  dsimp only at hkind
  generalize (c :: cs).drop ((c :: cs).takeWhile isDecimal).length = behind at *
  split at hkind
  next hbegins =>
    obtain ⟨after, hafter⟩ := exists_tick hbegins
    have hgap := takeWhile_append_drop isGap behind
    rw [hafter] at hbegins hgap
    rw [hhead] at hsize
    refine ⟨c :: cs.takeWhile isDecimal, behind.takeWhile isGap, after, ?_, ?_, ?_⟩
    · exact .sized hc (fun _ => List.mem_takeWhile_imp) (fun _ => List.mem_takeWhile_imp)
    · cases after with
      | nil => cases hbegins
      | cons letter rest => exact hbegins
    · rw [hgap, hsize]
  next =>
    dsimp only at hkind
    split at hkind <;> cases hkind

/-- The letter of a base, perhaps behind a sign flag. -/
theorem exists_base_of_basedTail (h : (basedTail cs).2 = true) :
    ∃ (flag : Option Char) (letter : Char) (rest : List Char),
      cs = flag.toList ++ letter :: rest ∧ (∀ c ∈ flag, isSignFlag c = true) ∧
        isRadix letter = true := by
  cases cs with
  | nil => cases h
  | cons c cs =>
    by_cases hflag : isSignFlag c = true
    · cases cs with
      | nil => simp [basedTail, hflag] at h
      | cons letter rest =>
        refine ⟨some c, letter, rest, rfl, fun _ hc => Option.some.inj hc ▸ hflag, ?_⟩
        by_contra hradix
        simp [basedTail, hflag, hradix] at h
    · refine ⟨none, c, cs, rfl, by simp, ?_⟩
      by_contra hradix
      simp [basedTail, hflag, hradix] at h

/-- Behind the letter come a gap and digits, as far as there are any. -/
theorem basedTail_base {flag : Option Char} {letter : Char} {rest : List Char}
    (hflag : ∀ c ∈ flag, isSignFlag c = true) (hletter : isRadix letter = true) :
    (flag.toList ++ letter :: rest).take (basedTail (flag.toList ++ letter :: rest)).1 =
      flag.toList ++ letter :: (rest.takeWhile isGap ++
        (rest.drop (rest.takeWhile isGap).length).takeWhile (isBasedDigit letter)) := by
  have hsign := Lowering.isSignFlag_of_isRadix hletter
  have hwidth : (basedTail (flag.toList ++ letter :: rest)).1 =
      flag.toList.length + ((rest.takeWhile isGap).length +
        ((rest.drop (rest.takeWhile isGap).length).takeWhile (isBasedDigit letter)).length + 1) := by
    cases flag with
    | none =>
      simp [basedTail, hsign, hletter]
      omega
    | some c =>
      simp [basedTail, hflag c rfl, hletter]
      omega
  rw [hwidth, List.take_length_add_append, List.take_succ_cons, List.take_add, take_takeWhile,
    take_takeWhile]

/-- The parts of a number with a base. -/
structure SizedNumber where
  /-- Empty if no size is written. -/
  size : List Char
  gap : List Char
  flag : Option Char
  letter : Char
  space : List Char
  digits : List Char
  before : SizeText size gap
  flag_isSignFlag : ∀ c ∈ flag, isSignFlag c = true
  letter_isRadix : isRadix letter = true
  space_isGap : ∀ c ∈ space, isGap c = true
  digits_isBasedDigit : ∀ d ∈ digits, isBasedDigit letter d = true

/-- What stands behind the tick. -/
def SizedNumber.base (n : SizedNumber) : List Char :=
  n.flag.toList ++ n.letter :: (n.space ++ n.digits)

def SizedNumber.text (n : SizedNumber) : List Char := n.size ++ (n.gap ++ '\'' :: n.base)

/-- The text of a number with a base, problem or not, up to its base. -/
theorem exists_size_of_kind (hkind : (ofCons openBrackets c cs).kind = some .sizedLiteral) :
    ∃ size gap after, SizeText size gap ∧ (size ≠ [] → sizeFits size = true) ∧
      (c :: cs).take (ofCons openBrackets c cs).width =
        size ++ (gap ++ '\'' :: after.take (basedTail after).1) ∧
      ((ofCons openBrackets c cs).problems = [] → (basedTail after).2 = true) := by
  have hbase {after : List Char} (problems : List Problem)
      (h : (if (basedTail after).2 then [] else [Problem.missingBase]) ++ problems = []) :
      (basedTail after).2 = true := by
    by_contra hnone
    rw [if_neg hnone] at h
    cases h
  rcases begins_of_isNumber hkind rfl nofun with ⟨hdigit, hpiece⟩ | ⟨rfl, -, -, hpiece⟩ |
    ⟨-, -, hother, -⟩
  · rw [hpiece] at hkind ⊢
    obtain ⟨size, gap, after, hsize, hletter, hcs⟩ := exists_size_of_number hdigit hkind
    rw [hcs, number_of_size hsize hletter] at hkind ⊢
    have hfits : sizeFits size = true := by
      by_contra hwide
      rw [if_neg hwide] at hkind
      cases hkind
    refine ⟨size, gap, after, hsize, fun _ => hfits, ?_, hbase _⟩
    dsimp only
    rw [Nat.add_assoc, Nat.add_assoc, List.take_length_add_append, List.take_length_add_append,
      Nat.add_comm 1, List.take_succ_cons]
  · rw [hpiece]
    refine ⟨[], [], cs, .unsized, fun hne => absurd rfl hne, ?_, fun hclean => ?_⟩
    · dsimp only
      rw [Nat.add_comm, List.take_succ_cons]
      rfl
    · exact hbase [] (by rw [List.append_nil]; exact hclean)
  · cases hother

/-- A number with a base that has no problem has all its parts. -/
theorem exists_number_of_kind (hkind : (ofCons openBrackets c cs).kind = some .sizedLiteral)
    (hclean : (ofCons openBrackets c cs).problems = []) :
    ∃ n : SizedNumber, (n.size ≠ [] → sizeFits n.size = true) ∧
      (c :: cs).take (ofCons openBrackets c cs).width = n.text := by
  obtain ⟨size, gap, after, hsize, hfits, htext, hbase⟩ := exists_size_of_kind hkind
  obtain ⟨flag, letter, rest, hafter, hflag, hletter⟩ := exists_base_of_basedTail (hbase hclean)
  refine ⟨⟨size, gap, flag, letter, rest.takeWhile isGap,
    (rest.drop (rest.takeWhile isGap).length).takeWhile (isBasedDigit letter), hsize, hflag,
    hletter, fun _ => List.mem_takeWhile_imp, fun _ => List.mem_takeWhile_imp⟩, hfits, ?_⟩
  rw [htext, hafter, basedTail_base hflag hletter]
  rfl

end Netlist.Piece
