import Netlist.Proofs.Syntax.Alike
import Netlist.Proofs.Token.Cuts

/-!
The shapes of names and reals. What the lexer takes for a name begins with a letter or a low line,
goes on with letters, digits and a few signs, and is no reserved word; what it takes for a real has
a fraction or an exponent.
-/
namespace Netlist

namespace Piece

/-- The texts of names that are not escaped. -/
inductive NameText : List Char → Prop
  | mk {c : Char} {cs : List Char} : isNameStart c = true → (∀ d ∈ cs, isNameChar d = true) →
      Kind.ofSpelling? (String.ofList (c :: cs)) = none → NameText (c :: cs)

/-- The texts of names of the system. -/
inductive SystemText : List Char → Prop
  | mk {c : Char} {cs : List Char} : isNameStart c = true → (∀ d ∈ cs, isNameChar d = true) →
      SystemText ('$' :: c :: cs)

/-- The texts of escaped names. The white space behind one does not belong to it. -/
inductive EscapedText : List Char → Prop
  | mk {c : Char} {cs : List Char} : (∀ d ∈ c :: cs, isSpace d = false) →
      EscapedText ('\\' :: c :: cs)

/-- What may stand behind the digits of a real before its exponent. -/
inductive IsFraction : List Char → Prop
  | none : IsFraction []
  | some {d : Char} {ds : List Char} : d.isDigit = true → (∀ c ∈ ds, isDecimal c = true) →
      IsFraction ('.' :: d :: ds)

/-- What a real may end with. -/
inductive IsExponent : List Char → Prop
  | none : IsExponent []
  | some {mark : Char} {sign ds : List Char} : mark = 'e' ∨ mark = 'E' →
      sign = [] ∨ sign = ['+'] ∨ sign = ['-'] → (∀ c ∈ ds, isDecimal c = true) →
      IsExponent (mark :: (sign ++ ds))

/-- The texts of names, plain, escaped or of the system. -/
inductive SpokenText : List Char → Prop
  | name {cs : List Char} : NameText cs → SpokenText cs
  | escaped {cs : List Char} : EscapedText cs → SpokenText cs
  | system {cs : List Char} : SystemText cs → SpokenText cs

theorem SpokenText.ne_nil {cs : List Char} (h : SpokenText cs) : cs ≠ [] := by
  cases h with
  | name h => cases h with | mk _ _ _ => exact List.cons_ne_nil _ _
  | escaped h => cases h with | mk _ => exact List.cons_ne_nil _ _
  | system h => cases h with | mk _ _ => exact List.cons_ne_nil _ _

/-- No name has white space in it. -/
theorem SpokenText.isSpace {cs : List Char} (h : SpokenText cs) : ∀ c ∈ cs, isSpace c = false := by
  have hspace {p : Char → Bool} (hp : p = isNameStart ∨ p = isNameChar) {c : Char}
      (hc : p c = true) : Piece.isSpace c = false := isSpace_eq_false hc fun d hd => by
    rcases hp with rfl | rfl <;>
      rcases eq_of_isSpace hd with rfl | rfl | rfl | rfl | rfl <;> decide
  cases h with
  | name h =>
    cases h with
    | mk hstart hrest _ =>
      exact List.forall_mem_cons.mpr
        ⟨hspace (.inl rfl) hstart, fun c hc => hspace (.inr rfl) (hrest c hc)⟩
  | escaped h =>
    cases h with
    | mk hrest => exact List.forall_mem_cons.mpr ⟨by decide, hrest⟩
  | system h =>
    cases h with
    | mk hstart hrest =>
      exact List.forall_mem_cons.mpr ⟨by decide, List.forall_mem_cons.mpr
        ⟨hspace (.inl rfl) hstart, fun c hc => hspace (.inr rfl) (hrest c hc)⟩⟩

/-- The texts of reals. -/
inductive RealText : List Char → Prop
  | mk {d : Char} {ds fraction exponent : List Char} : d.isDigit = true →
      (∀ c ∈ ds, isDecimal c = true) → IsFraction fraction → IsExponent exponent →
      fraction ++ exponent ≠ [] → RealText (d :: (ds ++ (fraction ++ exponent)))

/-- The kinds of names and reals. -/
def isSpoken : Kind → Bool
  | .identifier => true
  | .escapedIdentifier => true
  | .systemIdentifier => true
  | .realLiteral => true
  | _ => false

variable {openBrackets : Nat} {c : Char} {cs : List Char}

theorem isSpoken_symbol {kind : Kind} {width : Nat}
    (h : symbol? openBrackets cs = some (kind, width)) : isSpoken kind = false := by
  have hsymbols : ∀ entry ∈ symbols, isSpoken entry.2 = false := by decide
  unfold symbol? at h
  split at h
  · cases h
    rfl
  · split at h
    · cases h
      rfl
    · obtain ⟨entry, hfound, heq⟩ := Option.map_eq_some_iff.mp h
      cases heq
      exact hsymbols entry (List.mem_of_find?_eq_some hfound)

/-- What a text that begins with `c` can begin with, as far as names and reals go. -/
inductive Spoken (c : Char) (cs : List Char) : Piece → Prop
  | name : isNameStart c = true →
      Spoken c cs {
        kind := some ((Kind.ofSpelling? (String.ofList ((c :: cs).takeWhile isNameChar))).getD
          .identifier)
        width := ((c :: cs).takeWhile isNameChar).length }
  | system : c = '$' → cs.head?.any isNameStart = true →
      Spoken c cs {
        kind := some .systemIdentifier
        width := 1 + (cs.takeWhile isNameChar).length }
  | escaped : c = '\\' → (cs.takeWhile fun d => !isSpace d).length ≠ 0 →
      Spoken c cs {
        kind := some .escapedIdentifier
        width := 1 + (cs.takeWhile fun d => !isSpace d).length }
  | digits : c.isDigit = true → Spoken c cs (number (c :: cs))
  | other {p : Piece} : (∀ kind, p.kind = some kind → isSpoken kind = false) → Spoken c cs p

private theorem isSpoken_rest {kind : Kind} (hname : isNameStart c = false)
    (hescape : c = '\\' → (cs.takeWhile fun d => !isSpace d).length = 0)
    (hdollar : c = '$' → cs.head?.any isNameStart = false) (hdigit : c.isDigit = false)
    (hkind : (ofCons openBrackets c cs).kind = some kind) : isSpoken kind = false := by
  simp only [ofCons, hname, hdigit, Bool.false_eq_true, if_false] at hkind
  split at hkind
  · cases hkind
  split at hkind
  · cases hkind
  split at hkind
  · cases hkind
  split at hkind
  · cases hkind
  split at hkind
  next hc =>
    rw [if_pos (hescape hc)] at hkind
    cases hkind
    rfl
  split at hkind
  next hc =>
    rw [hdollar hc, if_neg Bool.false_ne_true] at hkind
    cases hkind
    rfl
  split at hkind
  · cases hkind
    rfl
  split at hkind
  · cases hkind
    rfl
  split at hkind
  · split at hkind <;> cases hkind <;> rfl
  split at hkind
  next hsymbol =>
    cases hkind
    exact isSpoken_symbol hsymbol
  next =>
    cases hkind
    rfl

theorem spoken_ofCons (openBrackets : Nat) (c : Char) (cs : List Char) :
    Spoken c cs (ofCons openBrackets c cs) := by
  cases hname : isNameStart c with
  | true =>
    rw [ofCons_name hname]
    exact .name hname
  | false =>
    cases hdigit : c.isDigit with
    | true =>
      rw [ofCons_digit hdigit]
      exact .digits hdigit
    | false =>
      by_cases hsystem : c = '$' ∧ cs.head?.any isNameStart = true
      · obtain ⟨rfl, hhead⟩ := hsystem
        rw [ofCons_dollar hhead]
        exact .system rfl hhead
      · by_cases hescape : c = '\\' ∧ (cs.takeWhile fun d => !isSpace d).length ≠ 0
        · obtain ⟨rfl, hne⟩ := hescape
          rw [ofCons_backslash, if_neg hne]
          exact .escaped rfl hne
        · refine .other fun kind => isSpoken_rest hname (fun hslash => ?_) (fun hdollar => ?_) hdigit
          · exact not_not.mp fun hne => hescape ⟨hslash, hne⟩
          · exact Bool.eq_false_of_not_eq_true fun hhead => hsystem ⟨hdollar, hhead⟩

theorem isSpoken_of_ofSpelling? {text : String} {kind : Kind}
    (h : Kind.ofSpelling? text = some kind) : isSpoken kind = false := by
  have hspelling : kind.spelling? = some text := by simpa using List.find?_some h
  cases kind <;> first | rfl | cases hspelling

theorem nameText_ofCons (hkind : (ofCons openBrackets c cs).kind = some .identifier) :
    NameText ((c :: cs).take (ofCons openBrackets c cs).width) := by
  have hspoken := spoken_ofCons openBrackets c cs
  generalize ofCons openBrackets c cs = piece at *
  cases hspoken with
  | name hname =>
    have hword : Kind.ofSpelling? (String.ofList ((c :: cs).takeWhile isNameChar)) = none := by
      cases hspelling : Kind.ofSpelling? (String.ofList ((c :: cs).takeWhile isNameChar)) with
      | none => rfl
      | some kind =>
        rw [hspelling] at hkind
        cases hkind
        cases isSpoken_of_ofSpelling? hspelling
    have hchar : isNameChar c = true := isNameChar_of_isNameStart hname
    dsimp only
    rw [take_takeWhile]
    rw [List.takeWhile_cons_of_pos hchar] at hword ⊢
    exact .mk hname (fun d hd => List.mem_takeWhile_imp hd) hword
  | system hdollar hhead => cases hkind
  | escaped hslash hne => cases hkind
  | digits hdigit =>
    rcases kind_number (c :: cs) with h | h | h | ⟨h, -⟩ <;> cases h.symm.trans hkind
  | other hother => cases hother _ hkind

theorem systemText_ofCons (hkind : (ofCons openBrackets c cs).kind = some .systemIdentifier) :
    SystemText ((c :: cs).take (ofCons openBrackets c cs).width) := by
  have hspoken := spoken_ofCons openBrackets c cs
  generalize ofCons openBrackets c cs = piece at *
  cases hspoken with
  | name hname =>
    cases hspelling : Kind.ofSpelling? (String.ofList ((c :: cs).takeWhile isNameChar)) with
    | none => simp [hspelling] at hkind
    | some kind =>
      rw [hspelling] at hkind
      cases hkind
      cases isSpoken_of_ofSpelling? hspelling
  | system hdollar hhead =>
    subst hdollar
    cases cs with
    | nil => cases hhead
    | cons d ds =>
      have hstart : isNameStart d = true := hhead
      dsimp only
      rw [Nat.add_comm, List.take_succ_cons, take_takeWhile,
        List.takeWhile_cons_of_pos (isNameChar_of_isNameStart hstart)]
      exact .mk hstart fun d hd => List.mem_takeWhile_imp hd
  | escaped hslash hne => cases hkind
  | digits hdigit =>
    rcases kind_number (c :: cs) with h | h | h | ⟨h, -⟩ <;> cases h.symm.trans hkind
  | other hother => cases hother _ hkind

private theorem isFraction_take (cs : List Char) : IsFraction (cs.take (fractionWidth cs)) := by
  unfold fractionWidth
  split
  next c cs =>
    split
    next hdigit =>
      have hdecimal : isDecimal c = true := by simp [isDecimal, hdigit]
      rw [Nat.add_comm, List.take_succ_cons, take_takeWhile, List.takeWhile_cons_of_pos hdecimal]
      exact .some hdigit fun d hd => List.mem_takeWhile_imp hd
    next => exact .none
  next => exact .none

private theorem isExponent_take (cs : List Char) : IsExponent (cs.take (exponentWidth cs)) := by
  cases cs with
  | nil => exact .none
  | cons mark cs =>
    rw [exponentWidth]
    split
    next hmark =>
      simp only [Bool.or_eq_true, decide_eq_true_eq] at hmark
      dsimp only
      rw [Nat.add_assoc, Nat.add_comm, List.take_succ_cons, List.take_add, take_takeWhile]
      refine .some hmark ?_ fun d hd => List.mem_takeWhile_imp hd
      cases cs with
      | nil => exact .inl rfl
      | cons sign cs =>
        split
        next hsign =>
          simp only [List.head?_cons, Option.some.injEq, Bool.or_eq_true, decide_eq_true_eq]
            at hsign
          rcases hsign with rfl | rfl
          · exact .inr (.inl rfl)
          · exact .inr (.inr rfl)
        next => exact .inl rfl
    next => exact .none

theorem realText_number (hdigit : c.isDigit = true)
    (hkind : (number (c :: cs)).kind = some .realLiteral) :
    RealText ((c :: cs).take (number (c :: cs)).width) := by
  have hsize : (c :: cs).takeWhile isDecimal = c :: cs.takeWhile isDecimal :=
    List.takeWhile_cons_of_pos (by simp [isDecimal, hdigit])
  unfold number at *
  dsimp only at *
  generalize hafter : (c :: cs).drop ((c :: cs).takeWhile isDecimal).length = after at *
  split at hkind
  next => split at hkind <;> cases hkind
  next hplain =>
    rw [if_neg hplain]
    dsimp only at hkind ⊢
    rw [Nat.add_assoc, List.take_add, take_takeWhile, hafter, List.take_add, hsize, List.cons_append]
    refine .mk hdigit (fun d hd => List.mem_takeWhile_imp hd) (isFraction_take after)
      (isExponent_take _) fun hnil => ?_
    obtain ⟨hfraction, hexponent⟩ := List.append_eq_nil_iff.mp hnil
    have hnone {width : List Char → Nat} (hempty : width [] = 0) {cs : List Char}
        (h : cs.take (width cs) = []) : width cs = 0 := by
      rcases List.take_eq_nil_iff.mp h with h | h
      · exact h
      · rw [h, hempty]
    rw [if_pos (by rw [hnone rfl hexponent, hnone rfl hfraction])] at hkind
    cases hkind

theorem escapedText_ofCons (hkind : (ofCons openBrackets c cs).kind = some .escapedIdentifier) :
    EscapedText ((c :: cs).take (ofCons openBrackets c cs).width) := by
  have hspoken := spoken_ofCons openBrackets c cs
  generalize ofCons openBrackets c cs = piece at *
  cases hspoken with
  | name hname =>
    cases hspelling : Kind.ofSpelling? (String.ofList ((c :: cs).takeWhile isNameChar)) with
    | none => simp [hspelling] at hkind
    | some kind =>
      rw [hspelling] at hkind
      cases hkind
      cases isSpoken_of_ofSpelling? hspelling
  | system hdollar hhead => cases hkind
  | escaped hslash hne =>
    subst hslash
    have hspace : ∀ d ∈ cs.takeWhile fun d => !isSpace d, isSpace d = false := fun d hd => by
      simpa using List.mem_takeWhile_imp hd
    dsimp only
    rw [Nat.add_comm, List.take_succ_cons, take_takeWhile]
    generalize cs.takeWhile (fun d => !isSpace d) = tail at *
    cases tail with
    | nil => exact absurd rfl hne
    | cons d ds => exact .mk hspace
  | digits hdigit =>
    rcases kind_number (c :: cs) with h | h | h | ⟨h, -⟩ <;> cases h.symm.trans hkind
  | other hother => cases hother _ hkind

theorem realText_ofCons (hkind : (ofCons openBrackets c cs).kind = some .realLiteral) :
    RealText ((c :: cs).take (ofCons openBrackets c cs).width) := by
  have hspoken := spoken_ofCons openBrackets c cs
  generalize ofCons openBrackets c cs = piece at *
  cases hspoken with
  | name hname =>
    cases hspelling : Kind.ofSpelling? (String.ofList ((c :: cs).takeWhile isNameChar)) with
    | none => simp [hspelling] at hkind
    | some kind =>
      rw [hspelling] at hkind
      cases hkind
      cases isSpoken_of_ofSpelling? hspelling
  | system hdollar hhead => cases hkind
  | escaped hslash hne => cases hkind
  | digits hdigit => exact realText_number hdigit hkind
  | other hother => cases hother _ hkind

end Piece

section Cuts

variable {file : Nat} {content : String} {t : Token}

/-- A token is the end of a text or was cut off where it begins. -/
theorem cut_of_mem_lex (ht : t ∈ (lex file content).1) :
    t.kind = .eof ∨ ∃ openBrackets c cs, (Piece.ofCons openBrackets c cs).kind = some t.kind ∧
      t.text.toList = (c :: cs).take (Piece.ofCons openBrackets c cs).width := by
  rw [lex_tokens, List.mem_append] at ht
  rcases ht with ht | ht
  · obtain ⟨l, hl, ht⟩ := List.mem_filterMap.mp ht
    obtain ⟨kind, hkind, rfl⟩ := Option.map_eq_some_iff.mp ht
    obtain ⟨before, openBrackets, c, cs, -, rfl⟩ := Lexeme.exists_of_mem_scan hl
    exact .inr ⟨openBrackets, c, cs, hkind, String.toList_ofList⟩
  · obtain rfl := List.mem_singleton.mp ht
    exact .inl rfl

theorem systemText_of_mem_lex (ht : t ∈ (lex file content).1) (hkind : t.kind = .systemIdentifier) :
    Piece.SystemText t.text.toList := by
  obtain hend | ⟨openBrackets, c, cs, hcut, htext⟩ := cut_of_mem_lex ht
  · cases hkind.symm.trans hend
  · rw [htext]
    exact Piece.systemText_ofCons (hcut.trans (congrArg some hkind))

theorem realText_of_mem_lex (ht : t ∈ (lex file content).1) (hkind : t.kind = .realLiteral) :
    Piece.RealText t.text.toList := by
  obtain hend | ⟨openBrackets, c, cs, hcut, htext⟩ := cut_of_mem_lex ht
  · cases hkind.symm.trans hend
  · rw [htext]
    exact Piece.realText_ofCons (hcut.trans (congrArg some hkind))

/-- Names are spelled as names, whatever else is wrong with a text. -/
theorem spokenText_of_mem_lex (ht : t ∈ (lex file content).1) (hname : t.kind.IsName) :
    Piece.SpokenText t.text.toList := by
  rcases hname with hname | hname
  · obtain hend | ⟨openBrackets, c, cs, hcut, htext⟩ := cut_of_mem_lex ht
    · rw [hend] at hname
      cases hname
    · rw [htext]
      cases hkind : t.kind <;> rw [hkind] at hname hcut <;> cases hname
      · exact .name (Piece.nameText_ofCons hcut)
      · exact .escaped (Piece.escapedText_ofCons hcut)
  · exact .system (systemText_of_mem_lex ht hname)

end Cuts

/-- What the texts of names and literals look like. -/
structure Token.Shaped (t : Token) : Prop where
  name : t.kind = .identifier → Piece.NameText t.text.toList
  system : t.kind = .systemIdentifier → Piece.SystemText t.text.toList
  number : t.kind.IsNumber → Piece.NumberText t.text.toList
  real : t.kind = .realLiteral → Piece.RealText t.text.toList

/-- Without diagnostics every token has the shape of its kind. -/
theorem shaped_of_mem_lex {file : Nat} {content : String} {t : Token}
    (hclean : (lex file content).2 = []) (ht : t ∈ (lex file content).1) : t.Shaped := by
  rw [lex_tokens, List.mem_append] at ht
  rcases ht with ht | ht
  · obtain ⟨l, hl, ht⟩ := List.mem_filterMap.mp ht
    obtain ⟨kind, hkind, rfl⟩ := Option.map_eq_some_iff.mp ht
    have hnumber (h : kind.IsNumber) : Piece.NumberText l.text := by
      refine Lexeme.numberText_of_clean hl ?_ (Lexeme.problems_of_clean hl hclean)
      rw [hkind, Option.some_inj, Option.some_inj, Option.some_inj]
      exact h
    obtain ⟨before, brackets, c, rest, -, rfl⟩ := Lexeme.exists_of_mem_scan hl
    constructor <;> intro h <;> rw [String.toList_ofList]
    · exact Piece.nameText_ofCons (hkind.trans (congrArg some h))
    · exact Piece.systemText_ofCons (hkind.trans (congrArg some h))
    · exact hnumber h
    · exact Piece.realText_ofCons (hkind.trans (congrArg some h))
  · obtain rfl := List.mem_singleton.mp ht
    constructor <;> intro h
    · cases h
    · cases h
    · rcases h with h | h | h <;> cases h
    · cases h

end Netlist
