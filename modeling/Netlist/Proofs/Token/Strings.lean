import Netlist.Proofs.Token.Lexing

/-!
The lexemes of strings. Between its quotes a string has units: characters that neither end nor break
it off, and backslashes, each with any character behind it. A lexeme is a string just if it is
written in this way, and wherever such a text stands at the start of a lexeme, it is that lexeme.
-/
namespace Netlist

/-- Whether a character stands for itself in a string. -/
def standsInString (c : Char) : Bool := c ≠ '"' && c ≠ '\\' && c ≠ '\n' && c ≠ '\x00'

/-- What the text between the quotes of a string is made of. -/
inductive StringUnit where
  | plain (c : Char) (h : standsInString c = true)
  /-- A backslash and the character it takes with it. -/
  | escaped (c : Char)

namespace StringUnit

def text : StringUnit → List Char
  | .plain c _ => [c]
  | .escaped c => ['\\', c]

/-- The text of a string with these units. -/
def quoted (us : List StringUnit) : List Char := '"' :: (us.flatMap text ++ ['"'])

end StringUnit

namespace Piece

open StringUnit (quoted)

theorem stringTail_plain {c : Char} (h : standsInString c = true) (cs : List Char) :
    stringTail (c :: cs) = ((stringTail cs).1 + 1, (stringTail cs).2) := by
  simp only [standsInString, Bool.and_eq_true, decide_eq_true_eq] at h
  obtain ⟨⟨⟨hquote, hslash⟩, hbreak⟩, hnull⟩ := h
  simp [stringTail, hquote, hslash, hbreak, hnull]

theorem stringTail_escaped (c : Char) (cs : List Char) :
    stringTail ('\\' :: c :: cs) = ((stringTail cs).1 + 2, (stringTail cs).2) := rfl

/-- Units and a quote are read to that quote, whatever stands behind it. -/
theorem stringTail_units (us : List StringUnit) (rest : List Char) :
    stringTail (us.flatMap StringUnit.text ++ '"' :: rest) =
      ((us.flatMap StringUnit.text).length + 1, true) := by
  induction us with
  | nil => rfl
  | cons u us ih =>
    rw [List.flatMap_cons]
    cases u with
    | plain c h =>
      rw [StringUnit.text, List.singleton_append, List.cons_append, stringTail_plain h, ih]
      rfl
    | escaped c =>
      rw [StringUnit.text, List.cons_append, List.singleton_append, List.cons_append,
        List.cons_append, stringTail_escaped, ih]
      rfl

/-- A backslash never stands alone or before a character that is not taken with it. -/
theorem ne_backslash {c : Char} {cs : List Char} (hlone : c = '\\' → cs = [] → False)
    (hpair : ∀ d ds, c = '\\' → cs = d :: ds → False) : c ≠ '\\' := by
  intro hslash
  cases cs with
  | nil => exact hlone hslash rfl
  | cons d ds => exact hpair d ds hslash rfl

/-- What neither begins an escape nor ends or breaks off a string stands for itself. -/
theorem standsInString_of {c : Char} (hslash : c ≠ '\\') (hquote : c ≠ '"')
    (hbreak : ¬ (c = '\n' || c = '\x00') = true) : standsInString c = true := by
  simp only [Bool.or_eq_true, decide_eq_true_eq, not_or] at hbreak
  simp [standsInString, hquote, hslash, hbreak]

/-- What belongs to a string that is closed is units and a quote. -/
theorem exists_units {cs : List Char} (h : (stringTail cs).2 = true) :
    ∃ us : List StringUnit, cs.take (stringTail cs).1 = us.flatMap StringUnit.text ++ ['"'] := by
  fun_induction stringTail cs with
  | case1 => cases h
  | case2 => cases h
  | case3 c cs width closed htail ih =>
    rw [htail] at ih
    obtain ⟨us, hus⟩ := ih h
    refine ⟨.escaped c :: us, ?_⟩
    rw [List.take_succ_cons, List.take_succ_cons, hus]
    rfl
  | case4 cs => exact ⟨[], rfl⟩
  | case5 => cases h
  | case6 c cs hlone hpair hquote hbreak width closed htail ih =>
    have hstands := standsInString_of (ne_backslash hlone hpair) hquote hbreak
    rw [htail] at ih
    obtain ⟨us, hus⟩ := ih h
    refine ⟨.plain c hstands :: us, ?_⟩
    rw [List.take_succ_cons, hus]
    rfl

variable {openBrackets : Nat} {c : Char} {cs : List Char}

theorem ofCons_quotes (openBrackets : Nat) (cs : List Char) :
    ofCons openBrackets '"' cs =
      if (stringTail cs).2 then { kind := some .stringLiteral, width := 1 + (stringTail cs).1 }
      else { kind := some .error, width := 1 + (stringTail cs).1, problems := [.openString] } := rfl

theorem name_ne_string (name : String) :
    (Kind.ofSpelling? name).getD .identifier ≠ .stringLiteral := by
  cases hword : Kind.ofSpelling? name with
  | none => nofun
  | some word =>
    have hspelling : word.spelling? = some name := by simpa using List.find?_some hword
    rintro rfl
    cases hspelling

theorem symbol?_ne_string {kind : Kind} {width : Nat}
    (h : symbol? openBrackets cs = some (kind, width)) : kind ≠ .stringLiteral := by
  have hsymbols : ∀ entry ∈ symbols, entry.2 ≠ .stringLiteral := by decide
  unfold symbol? at h
  split at h
  · cases h
    nofun
  · split at h
    · cases h
      nofun
    · obtain ⟨entry, hfound, heq⟩ := Option.map_eq_some_iff.mp h
      cases heq
      exact hsymbols entry (List.mem_of_find?_eq_some hfound)

/-- Only a quote begins a string. -/
theorem eq_quote_of_kind (h : (ofCons openBrackets c cs).kind = some .stringLiteral) : c = '"' := by
  by_contra hquote
  unfold ofCons at h
  by_cases hspace : isSpace c
  · rw [if_pos hspace] at h
    cases h
  rw [if_neg hspace] at h
  by_cases hline : (c = '/' && cs.head? = some '/') = true
  · rw [if_pos hline] at h
    cases h
  rw [if_neg hline] at h
  by_cases hblock : (c = '/' && cs.head? = some '*') = true
  · rw [if_pos hblock] at h
    cases h
  rw [if_neg hblock] at h
  by_cases hdirective : c = '\x60'
  · rw [if_pos hdirective] at h
    cases h
  rw [if_neg hdirective] at h
  by_cases hname : isNameStart c
  · rw [if_pos hname] at h
    exact name_ne_string _ (Option.some.inj h)
  rw [if_neg hname] at h
  by_cases hescape : c = '\\'
  · rw [if_pos hescape] at h
    dsimp only at h
    split at h <;> cases h
  rw [if_neg hescape] at h
  by_cases hdollar : c = '$'
  · rw [if_pos hdollar] at h
    split at h <;> cases h
  rw [if_neg hdollar] at h
  by_cases hdigit : c.isDigit
  · rw [if_pos hdigit] at h
    rcases kind_number (c :: cs) with hkind | hkind | hkind | ⟨hkind, -⟩ <;> simp [hkind] at h
  rw [if_neg hdigit] at h
  by_cases hbased : (c = '\'' && cs.head?.any isBaseLetter) = true
  · rw [if_pos hbased] at h
    cases h
  rw [if_neg hbased] at h
  by_cases hfill : (c = '\'' && cs.head?.any isFill) = true
  · rw [if_pos hfill] at h
    cases h
  rw [if_neg hfill, if_neg hquote] at h
  split at h
  next hsymbol => exact symbol?_ne_string hsymbol (Option.some.inj h)
  next => cases h

/-- Where a lexeme is a string, it is written as one. -/
theorem exists_units_of_kind (h : (ofCons openBrackets c cs).kind = some .stringLiteral) :
    ∃ us, (c :: cs).take (ofCons openBrackets c cs).width = quoted us := by
  obtain rfl := eq_quote_of_kind h
  rw [ofCons_quotes] at h ⊢
  cases hclosed : (stringTail cs).2 with
  | false => simp [hclosed] at h
  | true =>
    obtain ⟨us, hus⟩ := exists_units hclosed
    refine ⟨us, ?_⟩
    rw [if_pos rfl, Nat.add_comm, List.take_succ_cons, hus]
    rfl

/-- A text that is written as a string is one lexeme. -/
theorem ofCons_quoted (openBrackets : Nat) (us : List StringUnit) (rest : List Char) :
    ofCons openBrackets '"' (us.flatMap StringUnit.text ++ '"' :: rest) =
      { kind := some .stringLiteral, width := (quoted us).length } := by
  rw [ofCons_quotes, stringTail_units, if_pos rfl, quoted, List.length_cons, List.length_append,
    Nat.add_comm]
  rfl

end Piece

end Netlist
