import Netlist.Token.Basic
import Mathlib.Data.List.TakeWhile

/-!
What lexing gives. Each lexeme is the piece that some rest of the text begins with, at its place;
places grow from lexeme to lexeme. A lexeme that is an error has a problem, so a text without
problems has no such lexeme, and none is taken for the end of the text.
-/
namespace Netlist

/-- The kinds of numbers, of errors and of the end: no word and no symbol has one of them. -/
def Kind.isApart : Kind → Bool
  | .intLiteral => true
  | .sizedLiteral => true
  | .fillLiteral => true
  | .eof => true
  | .error => true
  | _ => false

namespace Piece

theorem isApart_name (name : String) :
    ((Kind.ofSpelling? name).getD .identifier).isApart = false := by
  cases hword : Kind.ofSpelling? name with
  | none => rfl
  | some word =>
    have hspelling : word.spelling? = some name := by simpa using List.find?_some hword
    cases word <;> first | rfl | cases hspelling

theorem isApart_symbol {openBrackets : Nat} {cs : List Char} {kind : Kind} {width : Nat}
    (h : symbol? openBrackets cs = some (kind, width)) : kind.isApart = false := by
  have hsymbols : ∀ entry ∈ symbols, entry.2.isApart = false := by decide
  unfold symbol? at h
  split at h
  · cases h
    rfl
  · split at h
    · cases h
      rfl
    · obtain ⟨entry, hfound, heq⟩ := Option.map_eq_some_iff.mp h
      cases heq
      exact hsymbols entry (List.mem_of_find?_eq_some hfound)

/-- The lexemes that a text can begin with, one case for each sort. -/
inductive Cut (openBrackets : Nat) (c : Char) (cs : List Char) : Piece → Prop
  | space : isSpace c = true →
      Cut openBrackets c cs { kind := none, width := ((c :: cs).takeWhile isSpace).length }
  | line : c ≠ '\n' → Cut openBrackets c cs
      { kind := none, width := ((c :: cs).takeWhile (· ≠ '\n')).length }
  | block : cs.head? = some '*' → Cut openBrackets c cs {
      kind := none
      width := 2 + (commentTail (cs.drop 1)).1
      problems := if (commentTail (cs.drop 1)).2 then [] else [.openComment] }
  | directive : c ≠ '\n' → Cut openBrackets c cs {
      kind := none
      width := ((c :: cs).takeWhile (· ≠ '\n')).length
      problems := [.directive] }
  | name : isNameStart c = true → Cut openBrackets c cs {
      kind := some ((Kind.ofSpelling? (String.ofList ((c :: cs).takeWhile isNameChar))).getD
        .identifier)
      width := ((c :: cs).takeWhile isNameChar).length }
  | escape : Cut openBrackets c cs {
      kind := some .escapedIdentifier
      width := 1 + (cs.takeWhile fun d => !isSpace d).length }
  | system : Cut openBrackets c cs {
      kind := some .systemIdentifier
      width := 1 + (cs.takeWhile isNameChar).length }
  | flawed {problem : Problem} : problem ≠ .missingBase →
      Cut openBrackets c cs { kind := some .error, width := 1, problems := [problem] }
  | digits : c.isDigit = true → Cut openBrackets c cs (number (c :: cs))
  | based : c = '\'' → cs.head?.any isBaseLetter = true → Cut openBrackets c cs {
      kind := some .sizedLiteral
      width := 1 + (basedTail cs).1
      problems := if (basedTail cs).2 then [] else [.missingBase] }
  | fill : c = '\'' → cs.head?.any isFill = true →
      Cut openBrackets c cs { kind := some .fillLiteral, width := 2 }
  | string : Cut openBrackets c cs
      { kind := some .stringLiteral, width := 1 + (stringTail cs).1 }
  | openString : Cut openBrackets c cs {
      kind := some .error, width := 1 + (stringTail cs).1, problems := [.openString] }
  | symbol {kind : Kind} {width : Nat} : symbol? openBrackets (c :: cs) = some (kind, width) →
      Cut openBrackets c cs { kind := some kind, width := width }

theorem cut_ofCons (openBrackets : Nat) (c : Char) (cs : List Char) :
    Cut openBrackets c cs (ofCons openBrackets c cs) := by
  unfold ofCons
  by_cases hspace : isSpace c
  · rw [if_pos hspace]
    exact .space hspace
  rw [if_neg hspace]
  have hbreak : c ≠ '\n' := by
    rintro rfl
    exact hspace rfl
  by_cases hline : (c = '/' && cs.head? = some '/') = true
  · rw [if_pos hline]
    exact .line hbreak
  rw [if_neg hline]
  by_cases hblock : (c = '/' && cs.head? = some '*') = true
  · rw [if_pos hblock]
    rw [Bool.and_eq_true, decide_eq_true_eq, decide_eq_true_eq] at hblock
    exact .block hblock.2
  rw [if_neg hblock]
  by_cases hdirective : c = '\x60'
  · rw [if_pos hdirective]
    exact .directive hbreak
  rw [if_neg hdirective]
  by_cases hname : isNameStart c
  · rw [if_pos hname]
    exact .name hname
  rw [if_neg hname]
  by_cases hescape : c = '\\'
  · rw [if_pos hescape]
    dsimp only
    split
    · exact .flawed nofun
    · exact .escape
  rw [if_neg hescape]
  by_cases hdollar : c = '$'
  · rw [if_pos hdollar]
    split
    · exact .system
    · exact .flawed nofun
  rw [if_neg hdollar]
  by_cases hdigit : c.isDigit
  · rw [if_pos hdigit]
    exact .digits hdigit
  rw [if_neg hdigit]
  by_cases hbased : (c = '\'' && cs.head?.any isBaseLetter) = true
  · rw [if_pos hbased]
    rw [Bool.and_eq_true, decide_eq_true_eq] at hbased
    exact .based hbased.1 hbased.2
  rw [if_neg hbased]
  by_cases hfill : (c = '\'' && cs.head?.any isFill) = true
  · rw [if_pos hfill]
    rw [Bool.and_eq_true, decide_eq_true_eq] at hfill
    exact .fill hfill.1 hfill.2
  rw [if_neg hfill]
  by_cases hquote : c = '"'
  · rw [if_pos hquote]
    dsimp only
    split
    · exact .string
    · exact .openString
  rw [if_neg hquote]
  split
  next hsymbol => exact .symbol hsymbol
  next => exact .flawed nofun

/-- What a text that begins with `c` can begin with, as far as numbers and errors go. -/
inductive Begins (c : Char) (cs : List Char) : Piece → Prop
  | between {p : Piece} : p.kind = none → Begins c cs p
  | plain {p : Piece} {kind : Kind} : p.kind = some kind → kind.isApart = false → Begins c cs p
  | flawed {p : Piece} {problem : Problem} : p.kind = some .error → problem ∈ p.problems →
      problem ≠ .missingBase → Begins c cs p
  | digits : c.isDigit = true → Begins c cs (number (c :: cs))
  | based : c = '\'' → cs.head?.any isBaseLetter = true →
      Begins c cs {
        kind := some .sizedLiteral
        width := 1 + (basedTail cs).1
        problems := if (basedTail cs).2 then [] else [.missingBase] }
  | fill : c = '\'' → cs.head?.any isFill = true →
      Begins c cs { kind := some .fillLiteral, width := 2 }

theorem begins_ofCons (openBrackets : Nat) (c : Char) (cs : List Char) :
    Begins c cs (ofCons openBrackets c cs) := by
  have hcut := cut_ofCons openBrackets c cs
  generalize ofCons openBrackets c cs = piece at hcut
  cases hcut with
  | space _ => exact .between rfl
  | line _ => exact .between rfl
  | block _ => exact .between rfl
  | directive _ => exact .between rfl
  | name _ => exact .plain rfl (isApart_name _)
  | escape => exact .plain rfl rfl
  | system => exact .plain rfl rfl
  | flawed hproblem => exact .flawed rfl (List.mem_singleton_self _) hproblem
  | digits hdigit => exact .digits hdigit
  | based htick hletter => exact .based htick hletter
  | fill htick hfill => exact .fill htick hfill
  | string => exact .plain rfl rfl
  | openString => exact .flawed rfl (List.mem_singleton_self _) nofun
  | symbol hsymbol => exact .plain rfl (isApart_symbol hsymbol)

/-- What may follow the tick of a literal with a base. -/
inductive BasedText : List Char → Prop
  | plain {radix : Char} {digits : List Char} : isRadix radix = true →
      (∀ d ∈ digits, isGap d = true ∨ isBasedDigit radix d = true) → BasedText (radix :: digits)
  | signed {flag radix : Char} {digits : List Char} : isSignFlag flag = true →
      isRadix radix = true → (∀ d ∈ digits, isGap d = true ∨ isBasedDigit radix d = true) →
      BasedText (flag :: radix :: digits)

/-- The texts of number literals that have no problem. -/
inductive NumberText : List Char → Prop
  | plain {d : Char} {ds : List Char} : d.isDigit = true → (∀ c ∈ ds, isDecimal c = true) →
      NumberText (d :: ds)
  | fill {c : Char} : isFill c = true → NumberText ['\'', c]
  | based {tail : List Char} : BasedText tail → NumberText ('\'' :: tail)
  | sized {d : Char} {ds gap tail : List Char} : d.isDigit = true →
      (∀ c ∈ ds, isDecimal c = true) → sizeFits (d :: ds) = true → (∀ c ∈ gap, isGap c = true) →
      BasedText tail → NumberText (d :: ds ++ gap ++ '\'' :: tail)

theorem take_takeWhile (p : Char → Bool) (cs : List Char) :
    cs.take (cs.takeWhile p).length = cs.takeWhile p :=
  (List.prefix_iff_eq_take.mp (List.takeWhile_prefix p)).symm

private theorem mem_digits (radix : Char) (cs : List Char) :
    let gap := (cs.takeWhile isGap).length
    let digits := ((cs.drop gap).takeWhile (isBasedDigit radix)).length
    ∀ d ∈ cs.take (gap + digits), isGap d = true ∨ isBasedDigit radix d = true := by
  intro gap digits d hd
  rw [List.take_add, take_takeWhile, take_takeWhile, List.mem_append] at hd
  exact hd.imp List.mem_takeWhile_imp List.mem_takeWhile_imp

private theorem take_cons_width (c : Char) (cs : List Char) (m n : Nat) :
    (c :: cs).take (m + 1 + n) = c :: cs.take (m + n) := by
  rw [Nat.add_right_comm, List.take_succ_cons]

theorem basedText_basedTail {cs : List Char} (h : (basedTail cs).2 = true) :
    BasedText (cs.take (basedTail cs).1) := by
  cases cs with
  | nil => cases h
  | cons c cs =>
    by_cases hflag : isSignFlag c = true
    · cases cs with
      | nil => simp [basedTail, hflag] at h
      | cons radix rest =>
        by_cases hradix : isRadix radix = true
        · simp only [basedTail, List.head?_cons, Option.any_some, hflag, if_true,
            List.drop_succ_cons, List.drop_zero, hradix, Nat.add_comm (1 + 1), take_cons_width]
          exact .signed hflag hradix (mem_digits radix rest)
        · simp [basedTail, hflag, hradix] at h
    · by_cases hradix : isRadix c = true
      · simp only [basedTail, List.head?_cons, Option.any_some, hflag, List.drop_zero, hradix,
          if_true, Bool.false_eq_true, if_false, Nat.zero_add, Nat.add_comm 1, take_cons_width]
        exact .plain hradix (mem_digits c cs)
      · simp [basedTail, hflag, hradix] at h

theorem exists_tick {cs : List Char} (h : beginsBased cs = true) :
    ∃ rest, cs = '\'' :: rest := by
  unfold beginsBased at h
  split at h
  · exact ⟨_, rfl⟩
  · cases h

theorem take_gap_tick {after rest : List Char}
    (h : after.drop (after.takeWhile isGap).length = '\'' :: rest) (n : Nat) :
    after.take ((after.takeWhile isGap).length + 1 + n) =
      after.takeWhile isGap ++ '\'' :: rest.take n := by
  rw [Nat.add_assoc, List.take_add, take_takeWhile, h, Nat.add_comm 1, List.take_succ_cons]

theorem drop_gap_tick {after rest : List Char}
    (h : after.drop (after.takeWhile isGap).length = '\'' :: rest) :
    after.drop ((after.takeWhile isGap).length + 1) = rest := by
  rw [← List.drop_drop, h, List.drop_one, List.tail_cons]

theorem numberText_number {c : Char} {cs : List Char} (hdigit : c.isDigit = true)
    (hkind : (number (c :: cs)).kind = some .intLiteral ∨
      (number (c :: cs)).kind = some .sizedLiteral)
    (hclean : (number (c :: cs)).problems = []) :
    NumberText ((c :: cs).take (number (c :: cs)).width) := by
  have hsize : (c :: cs).takeWhile isDecimal = c :: cs.takeWhile isDecimal :=
    List.takeWhile_cons_of_pos (by simp [isDecimal, hdigit])
  have hds : ∀ d ∈ cs.takeWhile isDecimal, isDecimal d = true := fun _ hd =>
    List.mem_takeWhile_imp hd
  unfold number at *
  dsimp only at *
  generalize hafter : (c :: cs).drop ((c :: cs).takeWhile isDecimal).length = after at *
  split at hkind
  next hbased =>
    obtain ⟨rest, hrest⟩ := exists_tick hbased
    rw [if_pos hbased] at hclean ⊢
    rw [drop_gap_tick hrest] at hclean ⊢
    obtain ⟨hbase, hfits⟩ := List.append_eq_nil_iff.mp hclean
    have hfits : sizeFits ((c :: cs).takeWhile isDecimal) = true := by
      by_contra hwide
      rw [if_neg hwide] at hfits
      cases hfits
    have hbase : (basedTail rest).2 = true := by
      by_contra hnone
      rw [if_neg hnone] at hbase
      cases hbase
    dsimp only
    rw [Nat.add_assoc, Nat.add_assoc, List.take_add, take_takeWhile, hafter, ← Nat.add_assoc,
      take_gap_tick hrest, ← List.append_assoc, hsize]
    rw [hsize] at hfits
    exact .sized hdigit hds hfits (fun _ hd => List.mem_takeWhile_imp hd)
      (basedText_basedTail hbase)
  next hplain =>
    rw [if_neg hplain]
    have hzero : fractionWidth after + exponentWidth (after.drop (fractionWidth after)) = 0 := by
      by_contra hne
      rw [if_neg hne] at hkind
      rcases hkind with hkind | hkind <;> cases hkind
    dsimp only
    rw [Nat.add_assoc, hzero, Nat.add_zero, take_takeWhile, hsize]
    exact .plain hdigit hds

theorem kind_number (cs : List Char) :
    (number cs).kind = some .realLiteral ∨ (number cs).kind = some .intLiteral ∨
      (number cs).kind = some .sizedLiteral ∨
      (number cs).kind = some .error ∧ .wideSize ∈ (number cs).problems := by
  unfold number
  dsimp only
  split
  · by_cases hfits : sizeFits (cs.takeWhile isDecimal) = true
    · simp [hfits]
    · simp [hfits]
  · dsimp only
    split
    · simp
    · simp

section Sorts

variable {openBrackets : Nat} {c : Char} {cs : List Char}

theorem kind_ne_eof : (ofCons openBrackets c cs).kind ≠ some .eof := by
  have hbegins := begins_ofCons openBrackets c cs
  generalize ofCons openBrackets c cs = piece at hbegins
  intro heof
  cases hbegins with
  | between hnone => simp [hnone] at heof
  | plain hkind hapart =>
    rw [hkind, Option.some_inj] at heof
    subst heof
    cases hapart
  | flawed hkind _ _ => simp [hkind] at heof
  | digits hdigit => rcases kind_number (c :: cs) with h | h | h | ⟨h, -⟩ <;> simp [h] at heof
  | based htick hletter => simp at heof
  | fill htick hfill => simp at heof

/-- A piece that is an error has a problem, other than at its end. -/
theorem exists_problem_of_error (herror : (ofCons openBrackets c cs).kind = some .error) :
    ∃ problem ∈ (ofCons openBrackets c cs).problems, problem ≠ .missingBase := by
  have hbegins := begins_ofCons openBrackets c cs
  generalize ofCons openBrackets c cs = piece at *
  cases hbegins with
  | between hnone => simp [hnone] at herror
  | plain hkind hapart =>
    rw [hkind, Option.some_inj] at herror
    subst herror
    cases hapart
  | flawed _ hproblem hother => exact ⟨_, hproblem, hother⟩
  | digits hdigit =>
    rcases kind_number (c :: cs) with h | h | h | ⟨-, h⟩
    · simp [h] at herror
    · simp [h] at herror
    · simp [h] at herror
    · exact ⟨.wideSize, h, nofun⟩
  | based htick hletter => simp at herror
  | fill htick hfill => simp at herror

/-- A number without problems reads as one. -/
theorem numberText_ofCons
    (hkind : (ofCons openBrackets c cs).kind = some .intLiteral ∨
      (ofCons openBrackets c cs).kind = some .sizedLiteral ∨
      (ofCons openBrackets c cs).kind = some .fillLiteral)
    (hclean : (ofCons openBrackets c cs).problems = []) :
    NumberText ((c :: cs).take (ofCons openBrackets c cs).width) := by
  have hbegins := begins_ofCons openBrackets c cs
  generalize ofCons openBrackets c cs = piece at *
  cases hbegins with
  | between hnone => simp [hnone] at hkind
  | plain hplain hapart =>
    rw [hplain, Option.some_inj, Option.some_inj, Option.some_inj] at hkind
    rcases hkind with rfl | rfl | rfl <;> cases hapart
  | flawed _ hproblem _ => exact absurd hclean (List.ne_nil_of_mem hproblem)
  | digits hdigit =>
    refine numberText_number hdigit ?_ hclean
    rcases kind_number (c :: cs) with h | h | h | ⟨-, h⟩
    · simp [h] at hkind
    · exact .inl h
    · exact .inr h
    · exact absurd hclean (List.ne_nil_of_mem h)
  | based htick hletter =>
    subst htick
    have hbase : (basedTail cs).2 = true := by
      by_contra hnone
      rw [if_neg hnone] at hclean
      cases hclean
    dsimp only
    rw [Nat.add_comm, List.take_succ_cons]
    exact .based (basedText_basedTail hbase)
  | fill htick hfill =>
    subst htick
    cases cs with
    | nil => cases hfill
    | cons d ds => exact .fill (by simpa using hfill)

end Sorts

theorem width_symbol {openBrackets : Nat} {cs : List Char} {kind : Kind} {width : Nat}
    (h : symbol? openBrackets cs = some (kind, width)) : 0 < width := by
  have hsymbols : ∀ entry ∈ symbols, 0 < entry.1.length := by decide
  unfold symbol? at h
  split at h
  · cases h
    decide
  · split at h
    · cases h
      decide
    · obtain ⟨entry, hfound, heq⟩ := Option.map_eq_some_iff.mp h
      cases heq
      exact hsymbols entry (List.mem_of_find?_eq_some hfound)

/-- No piece is empty. -/
theorem width_pos (openBrackets : Nat) (c : Char) (cs : List Char) :
    0 < (ofCons openBrackets c cs).width := by
  have hclass {p : Char → Bool} (hc : p c = true) : 0 < ((c :: cs).takeWhile p).length := by
    rw [List.takeWhile_cons_of_pos hc, List.length_cons]
    exact Nat.succ_pos _
  have hcut := cut_ofCons openBrackets c cs
  generalize ofCons openBrackets c cs = piece at hcut
  cases hcut with
  | space hspace => exact hclass hspace
  | line hbreak => exact hclass (decide_eq_true hbreak)
  | block _ => exact Nat.add_pos_left Nat.two_pos _
  | directive hbreak => exact hclass (decide_eq_true hbreak)
  | name hname =>
    apply hclass
    rw [isNameStart, Bool.or_eq_true] at hname
    rcases hname with hname | hname <;> simp [isNameChar, Char.isAlphanum, hname]
  | digits hdigit =>
    have hsize : 0 < ((c :: cs).takeWhile isDecimal).length := hclass (by simp [isDecimal, hdigit])
    unfold number
    dsimp only
    split <;> (dsimp only; omega)
  | fill _ _ => exact Nat.two_pos
  | symbol hsymbol => exact width_symbol hsymbol
  | flawed _ => exact Nat.one_pos
  | _ => exact Nat.add_pos_left Nat.one_pos _

end Piece

namespace Lexeme

/-- The lexeme that a text at `offset` begins with. -/
def first (offset openBrackets : Nat) (c : Char) (cs : List Char) : Lexeme where
  kind := (Piece.ofCons openBrackets c cs).kind
  text := (c :: cs).take (Piece.ofCons openBrackets c cs).width
  start := offset
  problems := (Piece.ofCons openBrackets c cs).problems

theorem scan_cons (offset openBrackets : Nat) (c : Char) (cs : List Char) :
    scan 0 offset openBrackets (c :: cs) =
      first offset openBrackets c cs ::
        scan ((Piece.ofCons openBrackets c cs).width - 1) (offset + c.utf8Size)
          (bracketsAfter openBrackets (Piece.ofCons openBrackets c cs).kind) cs := rfl

/-- Every lexeme is what some rest of the text begins with. -/
theorem exists_of_mem_scan {l : Lexeme} {skip offset openBrackets : Nat} {cs : List Char}
    (h : l ∈ scan skip offset openBrackets cs) :
    ∃ before brackets c rest, cs = before ++ c :: rest ∧
      l = first (offset + Text.byteLength before) brackets c rest := by
  induction cs generalizing skip offset openBrackets with
  | nil => cases skip <;> cases h
  | cons c cs ih =>
    have hlater {skip brackets : Nat} (h : l ∈ scan skip (offset + c.utf8Size) brackets cs) :
        ∃ before brackets d rest, c :: cs = before ++ d :: rest ∧
          l = first (offset + Text.byteLength before) brackets d rest := by
      obtain ⟨before, brackets, d, rest, hcs, hl⟩ := ih h
      refine ⟨c :: before, brackets, d, rest, by rw [hcs, List.cons_append], ?_⟩
      rw [hl, Text.byteLength, Nat.add_assoc]
    cases skip with
    | succ skip => exact hlater h
    | zero =>
      rcases List.mem_cons.mp h with rfl | h
      · exact ⟨[], openBrackets, c, cs, rfl, rfl⟩
      · exact hlater h

/-- A lexeme stands behind what belongs to one found before. -/
theorem le_start_of_mem_scan {l : Lexeme} {skip offset openBrackets : Nat} {cs : List Char}
    (h : l ∈ scan skip offset openBrackets cs) :
    offset + Text.byteLength (cs.take skip) ≤ l.start := by
  induction cs generalizing skip offset openBrackets with
  | nil => cases skip <;> cases h
  | cons c cs ih =>
    cases skip with
    | succ skip =>
      have hlater := ih h
      rw [List.take_succ_cons, Text.byteLength]
      omega
    | zero =>
      obtain ⟨before, brackets, c, rest, -, rfl⟩ := exists_of_mem_scan h
      exact Nat.le_add_right _ _

/-- No lexeme is empty. -/
theorem start_lt_stop {l : Lexeme} {skip offset openBrackets : Nat} {cs : List Char}
    (h : l ∈ scan skip offset openBrackets cs) : l.start < l.stop := by
  obtain ⟨before, brackets, c, rest, -, rfl⟩ := exists_of_mem_scan h
  obtain ⟨width, hwidth⟩ := Nat.exists_eq_add_one.mpr (Piece.width_pos brackets c rest)
  have hpos := c.utf8Size_pos
  rw [stop, first, hwidth, List.take_succ_cons, Text.byteLength]
  dsimp only
  omega

theorem scan_of_length_le {skip offset openBrackets : Nat} {cs : List Char}
    (h : cs.length ≤ skip) : scan skip offset openBrackets cs = [] := by
  induction cs generalizing skip offset with
  | nil => cases skip <;> rfl
  | cons c cs ih =>
    cases skip with
    | zero => cases h
    | succ skip => exact ih (Nat.le_of_succ_le_succ h)

/-- Blanks are one lexeme, which is no token and has no problem. -/
theorem scan_spaces {offset openBrackets : Nat} {cs : List Char}
    (h : ∀ c ∈ cs, Piece.isSpace c = true) :
    ∀ l ∈ scan 0 offset openBrackets cs, l.kind = none ∧ l.problems = [] := by
  cases cs with
  | nil => nofun
  | cons c cs =>
    have hall : (c :: cs).takeWhile Piece.isSpace = c :: cs := List.takeWhile_eq_self_iff.mpr h
    have hpiece : Piece.ofCons openBrackets c cs =
        { kind := none, width := ((c :: cs).takeWhile Piece.isSpace).length } :=
      if_pos (h c List.mem_cons_self)
    rw [hall] at hpiece
    intro l hl
    rw [scan_cons, first, hpiece] at hl
    rcases List.mem_cons.mp hl with rfl | hl
    · exact ⟨rfl, rfl⟩
    · have hrest : cs.length ≤ (c :: cs).length - 1 := Nat.le_refl _
      rw [scan_of_length_le hrest] at hl
      cases hl

/-- Lexemes come in the order of their places, one behind the other. -/
theorem pairwise_scan (skip offset openBrackets : Nat) (cs : List Char) :
    (scan skip offset openBrackets cs).Pairwise (fun l l' => l.stop ≤ l'.start) := by
  induction cs generalizing skip offset openBrackets with
  | nil => cases skip <;> exact .nil
  | cons c cs ih =>
    cases skip with
    | succ skip => exact ih skip _ _
    | zero =>
      refine List.pairwise_cons.mpr ⟨fun l hl => ?_, ih _ _ _⟩
      obtain ⟨width, hwidth⟩ := Nat.exists_eq_add_one.mpr (Piece.width_pos openBrackets c cs)
      have hle := le_start_of_mem_scan hl
      rw [hwidth, Nat.add_sub_cancel] at hle
      rw [stop, hwidth, List.take_succ_cons, Text.byteLength]
      dsimp only
      omega

/-- The place of a lexeme in its text. -/
theorem exists_of_mem_ofText {l : Lexeme} {cs : List Char} (h : l ∈ ofText cs) :
    ∃ before rest, cs = before ++ (l.text ++ rest) ∧ l.start = Text.byteLength before := by
  obtain ⟨before, brackets, c, rest, hcs, rfl⟩ := exists_of_mem_scan h
  refine ⟨before, (c :: rest).drop (Piece.ofCons brackets c rest).width, ?_, Nat.zero_add _⟩
  rw [hcs, first, List.take_append_drop]

/-- The lexeme that begins at a place is the first one of what follows there. -/
theorem eq_first_of_start {l : Lexeme} {before rest : List Char} {c : Char}
    (h : l ∈ ofText (before ++ c :: rest)) (hstart : l.start = Text.byteLength before) :
    ∃ brackets, l = first (Text.byteLength before) brackets c rest := by
  obtain ⟨before', brackets, d, tail, hcs, rfl⟩ := exists_of_mem_scan h
  have hplace : Text.byteLength before' = Text.byteLength before := by
    rw [← hstart, first, Nat.zero_add]
  have hdrop := Text.dropBytes?_append before' (d :: tail)
  rw [hplace, ← hcs, Text.dropBytes?_append] at hdrop
  obtain ⟨rfl, rfl⟩ := List.cons.inj (Option.some.inj hdrop)
  exact ⟨brackets, by rw [hplace, Nat.zero_add]⟩

theorem stop_le {l : Lexeme} {cs : List Char} (h : l ∈ ofText cs) :
    l.stop ≤ Text.byteLength cs := by
  obtain ⟨before, rest, hcs, hstart⟩ := exists_of_mem_ofText h
  rw [hcs, Text.byteLength_append, Text.byteLength_append, stop, hstart]
  omega

theorem slice?_eq {l : Lexeme} {cs : List Char} (h : l ∈ ofText cs) :
    Text.slice? l.start l.stop cs = some l.text := by
  obtain ⟨before, rest, hcs, hstart⟩ := exists_of_mem_ofText h
  rw [hcs, stop, hstart, Text.slice?_append]

theorem exists_problem_of_error {l : Lexeme} {cs : List Char} (h : l ∈ ofText cs)
    (herror : l.kind = some .error) : ∃ problem ∈ l.problems, problem ≠ .missingBase := by
  obtain ⟨before, brackets, c, rest, -, rfl⟩ := exists_of_mem_scan h
  exact Piece.exists_problem_of_error herror

theorem problems_of_error {l : Lexeme} {cs : List Char} (h : l ∈ ofText cs)
    (herror : l.kind = some .error) : l.problems ≠ [] := by
  obtain ⟨problem, hproblem, -⟩ := exists_problem_of_error h herror
  exact List.ne_nil_of_mem hproblem

theorem kind_ne_eof {l : Lexeme} {cs : List Char} (h : l ∈ ofText cs) : l.kind ≠ some .eof := by
  obtain ⟨before, brackets, c, rest, -, rfl⟩ := exists_of_mem_scan h
  exact Piece.kind_ne_eof

theorem numberText_of_clean {l : Lexeme} {cs : List Char} (h : l ∈ ofText cs)
    (hkind : l.kind = some .intLiteral ∨ l.kind = some .sizedLiteral ∨ l.kind = some .fillLiteral)
    (hclean : l.problems = []) : Piece.NumberText l.text := by
  obtain ⟨before, brackets, c, rest, -, rfl⟩ := exists_of_mem_scan h
  exact Piece.numberText_ofCons hkind hclean

end Lexeme

theorem lex_tokens (file : Nat) (content : String) :
    (lex file content).1 = (Lexeme.ofText content.toList).filterMap Token.ofLexeme? ++
      [Token.endAt (Text.byteLength content.toList)] := rfl

/-- The tokens of a text end with the one at its end. -/
theorem lex_dropLast (file : Nat) (content : String) :
    (lex file content).1 = (lex file content).1.dropLast ++
      [Token.endAt (Text.byteLength content.toList)] := by
  rw [lex_tokens, List.dropLast_concat]

theorem lex_problems (file : Nat) (content : String) :
    (lex file content).2 = (Lexeme.ofText content.toList).flatMap (Lexeme.diagnostics file) := rfl

theorem code_of_mem_lex {file : Nat} {content : String} {d : Diagnostic}
    (h : d ∈ (lex file content).2) : d.code = Problem.code := by
  rw [lex_problems] at h
  obtain ⟨l, -, hl⟩ := List.mem_flatMap.mp h
  obtain ⟨problem, -, rfl⟩ := List.mem_map.mp hl
  rfl

/-- A token that stands before another; so it is not the one at the end. -/
structure Token.Before (t u : Token) : Prop where
  filled : t.start < t.stop
  stop : t.stop ≤ u.start
  inner : t.kind ≠ .eof

theorem Token.Before.start {t u : Token} (h : t.Before u) : t.start < u.start :=
  Nat.lt_of_lt_of_le h.filled h.stop

/-- Tokens come in the order of their places, and only the last one is at the end. -/
theorem pairwise_lex (file : Nat) (content : String) :
    (lex file content).1.Pairwise Token.Before := by
  have htoken {l : Lexeme} {t : Token} (ht : Token.ofLexeme? l = some t) :
      l.kind = some t.kind ∧ t.start = l.start ∧ t.stop = l.stop := by
    obtain ⟨kind, hkind, rfl⟩ := Option.map_eq_some_iff.mp ht
    exact ⟨hkind, rfl, rfl⟩
  have hbefore {l : Lexeme} (hl : l ∈ Lexeme.ofText content.toList) {t u : Token}
      (ht : Token.ofLexeme? l = some t) (hstop : l.stop ≤ u.start) : t.Before u := by
    obtain ⟨hkind, hstart, hlast⟩ := htoken ht
    refine ⟨?_, by omega, ?_⟩
    · have hfilled := Lexeme.start_lt_stop hl
      omega
    · intro heof
      exact Lexeme.kind_ne_eof hl (heof ▸ hkind)
  rw [lex_tokens, List.pairwise_append]
  refine ⟨?_, List.pairwise_singleton _ _, ?_⟩
  · have hsorted := Lexeme.pairwise_scan 0 0 0 content.toList
    rw [List.pairwise_filterMap]
    refine hsorted.imp_of_mem fun {l l'} hl hl' hle t ht u hu => hbefore hl ht ?_
    rw [(htoken hu).2.1]
    exact hle
  · intro t ht u hu
    obtain ⟨l, hl, ht⟩ := List.mem_filterMap.mp ht
    obtain rfl := List.mem_singleton.mp hu
    exact hbefore hl ht (Lexeme.stop_le hl)

/-- Every token covers the slice of the text that is its own text. -/
theorem slice?_of_mem_lex {file : Nat} {content : String} {t : Token}
    (ht : t ∈ (lex file content).1) :
    Text.slice? t.start t.stop content.toList = some t.text.toList := by
  rw [lex_tokens, List.mem_append] at ht
  rcases ht with ht | ht
  · obtain ⟨l, hl, ht⟩ := List.mem_filterMap.mp ht
    obtain ⟨kind, hkind, rfl⟩ := Option.map_eq_some_iff.mp ht
    rw [String.toList_ofList]
    exact Lexeme.slice?_eq hl
  · obtain rfl := List.mem_singleton.mp ht
    have hend := Text.slice?_append content.toList [] []
    rwa [List.append_nil, List.append_nil] at hend

/-- A broken lexeme is reported over its whole length. -/
theorem exists_report_of_error {file : Nat} {content : String} {t : Token}
    (ht : t ∈ (lex file content).1) (herror : t.kind = .error) :
    ∃ d ∈ (lex file content).2, d.code = Problem.code ∧ d.span = t.span file := by
  rw [lex_tokens, List.mem_append] at ht
  rcases ht with ht | ht
  · obtain ⟨l, hl, htoken⟩ := List.mem_filterMap.mp ht
    obtain ⟨kind, hkind, rfl⟩ := Option.map_eq_some_iff.mp htoken
    obtain rfl : kind = .error := herror
    obtain ⟨problem, hproblem, hother⟩ := Lexeme.exists_problem_of_error hl hkind
    refine ⟨problem.diagnostic file l, ?_, rfl, ?_⟩
    · rw [lex_problems]
      exact List.mem_flatMap.mpr ⟨l, hl, List.mem_map_of_mem hproblem⟩
    · simp only [Problem.diagnostic, if_neg hother]
      rfl
  · obtain rfl := List.mem_singleton.mp ht
    cases herror

/-- Blanks give no tokens and no diagnostics. -/
theorem tokens_of_spaces (file offset openBrackets : Nat) {cs : List Char}
    (h : ∀ c ∈ cs, Piece.isSpace c = true) :
    (Lexeme.scan 0 offset openBrackets cs).filterMap Token.ofLexeme? = [] ∧
      (Lexeme.scan 0 offset openBrackets cs).flatMap (Lexeme.diagnostics file) = [] := by
  rw [List.filterMap_eq_nil_iff, List.flatMap_eq_nil_iff]
  constructor
  · intro l hl
    rw [Token.ofLexeme?, (Lexeme.scan_spaces h l hl).1, Option.map_none]
  · intro l hl
    rw [Lexeme.diagnostics, (Lexeme.scan_spaces h l hl).2, List.map_nil]

/-- Without diagnostics no lexeme has a problem. -/
theorem Lexeme.problems_of_clean {file : Nat} {content : String} {l : Lexeme}
    (hl : l ∈ Lexeme.ofText content.toList) (hclean : (lex file content).2 = []) :
    l.problems = [] := by
  rw [lex_problems, List.flatMap_eq_nil_iff] at hclean
  exact List.map_eq_nil_iff.mp (hclean l hl)

end Netlist
