import Netlist.Proofs.Token.Lexing
import Mathlib.Data.List.Find

/-!
Texts that are cut as they were put together. A lexeme takes as much as it can, so what a text is
cut into depends on what stands behind it. Each sort of lexeme has a lemma that says what must not
follow it; lexemes that are kept apart in this way are found one by one.
-/
namespace Netlist

namespace Piece

/-- The text `c :: cs` before `rest`, outside of attributes, is one lexeme without problems. -/
def Single (kind : Option Kind) (c : Char) (cs rest : List Char) : Prop :=
  ofCons 0 c (cs ++ rest) = { kind := kind, width := (c :: cs).length }

/-- The text does not go on with a character of a class. -/
def Ends (p : Char → Bool) (rest : List Char) : Prop := ∀ r ∈ rest.head?, p r = false

theorem Ends.takeWhile {p : Char → Bool} {rest : List Char} (h : Ends p rest) :
    rest.takeWhile p = [] := by
  cases rest with
  | nil => rfl
  | cons r rest => exact List.takeWhile_cons_of_neg (by simp [h r rfl])

theorem Ends.takeWhile_append {p : Char → Bool} {cs rest : List Char} (h : Ends p rest)
    (hcs : ∀ c ∈ cs, p c = true) : (cs ++ rest).takeWhile p = cs := by
  rw [List.takeWhile_append_of_pos hcs, h.takeWhile, List.append_nil]

private theorem ne_of_class {p : Char → Bool} {c d : Char} (hc : p c = true) (hd : p d = false) :
    c ≠ d := by
  rintro rfl
  rw [hc] at hd
  cases hd

section Classes

variable {openBrackets : Nat} {c : Char} {cs rest : List Char}

theorem isSpace_eq_false {p : Char → Bool} (hc : p c = true)
    (hp : ∀ d, isSpace d = true → p d = false) : isSpace c = false := by
  by_contra hspace
  rw [Bool.not_eq_false] at hspace
  rw [hp c hspace] at hc
  cases hc

theorem eq_of_isSpace (h : isSpace c = true) :
    c = ' ' ∨ c = '\t' ∨ c = '\n' ∨ c = '\x0c' ∨ c = '\r' := by
  simpa [isSpace, or_assoc] using h

theorem ofCons_name (h : isNameStart c = true) :
    ofCons openBrackets c cs =
      { kind := some ((Kind.ofSpelling? (String.ofList ((c :: cs).takeWhile isNameChar))).getD
          .identifier)
        width := ((c :: cs).takeWhile isNameChar).length } := by
  have hspace : isSpace c = false := isSpace_eq_false h fun d hd => by
    rcases eq_of_isSpace hd with rfl | rfl | rfl | rfl | rfl <;> decide
  have hslash : c ≠ '/' := ne_of_class h (by decide)
  have htick : c ≠ '\x60' := ne_of_class h (by decide)
  simp [ofCons, hspace, hslash, htick, h]

theorem ofCons_digit (h : c.isDigit = true) : ofCons openBrackets c cs = number (c :: cs) := by
  have hspace : isSpace c = false := isSpace_eq_false h fun d hd => by
    rcases eq_of_isSpace hd with rfl | rfl | rfl | rfl | rfl <;> decide
  have hslash : c ≠ '/' := ne_of_class h (by decide)
  have htick : c ≠ '\x60' := ne_of_class h (by decide)
  have hescape : c ≠ '\\' := ne_of_class h (by decide)
  have hdollar : c ≠ '$' := ne_of_class h (by decide)
  have hname : isNameStart c = false := by
    have hlow : c ≠ '_' := ne_of_class h (by decide)
    have halpha : c.isAlpha = false := by
      simp only [Char.isDigit, Bool.and_eq_true, decide_eq_true_eq] at h
      unfold Char.isAlpha Char.isUpper Char.isLower
      grind
    simp [isNameStart, halpha, hlow]
  simp [ofCons, hspace, hslash, htick, hname, hescape, hdollar, h]

theorem ofCons_dollar (h : cs.head?.any isNameStart = true) :
    ofCons openBrackets '$' cs =
      { kind := some .systemIdentifier, width := 1 + (cs.takeWhile isNameChar).length } := by
  simp [ofCons, isSpace, isNameStart, h]

theorem ofCons_backslash (openBrackets : Nat) (cs : List Char) :
    ofCons openBrackets '\\' cs =
      if (cs.takeWhile fun d => !isSpace d).length = 0 then
        { kind := some .error, width := 1, problems := [.emptyEscape] }
      else
        { kind := some .escapedIdentifier
          width := 1 + (cs.takeWhile fun d => !isSpace d).length } := rfl

theorem ofCons_based (h : cs.head?.any isBaseLetter = true) (hbase : (basedTail cs).2 = true) :
    ofCons openBrackets '\'' cs =
      { kind := some .sizedLiteral, width := 1 + (basedTail cs).1 } := by
  simp [ofCons, isSpace, isNameStart, h, hbase]

theorem ofCons_fill (hbase : cs.head?.any isBaseLetter = false)
    (h : cs.head?.any isFill = true) :
    ofCons openBrackets '\'' cs = { kind := some .fillLiteral, width := 2 } := by
  simp [ofCons, isSpace, isNameStart, h, hbase]

theorem ofCons_quote (h : (stringTail cs).2 = true) :
    ofCons openBrackets '"' cs =
      { kind := some .stringLiteral, width := 1 + (stringTail cs).1 } := by
  simp [ofCons, isSpace, isNameStart, h]

end Classes

section Symbols

variable {c : Char} {cs rest : List Char} {text : String} {kind : Kind}

/-- The comments and the bracket that symbols can be taken for, and the symbols themselves. -/
def openings : List String := ["(*", "//", "/*"] ++ symbols.map Prod.fst

/-- Together with the character behind it, a symbol does not begin a longer one or a comment. -/
def Apart (text : String) (rest : List Char) : Prop :=
  ∀ opening ∈ openings, ∀ r ∈ rest.head?, ¬ text.toList ++ [r] <+: opening.toList

/-- Characters that can only begin a symbol or a comment. -/
def isMark (c : Char) : Bool :=
  !(isSpace c || c = '\x60' || isNameStart c || c = '\\' || c = '$' || c.isDigit || c = '\'' ||
    c = '"')

private theorem isPrefixOf_append {opening sign : List Char}
    (h : ∀ r ∈ rest.head?, ¬ sign ++ [r] <+: opening) :
    opening.isPrefixOf (sign ++ rest) = opening.isPrefixOf sign := by
  rw [Bool.eq_iff_iff, List.isPrefixOf_iff_prefix, List.isPrefixOf_iff_prefix]
  refine ⟨fun hopening => ?_, fun hopening => hopening.trans (List.prefix_append _ _)⟩
  cases rest with
  | nil => rwa [List.append_nil] at hopening
  | cons r rest =>
    have hsign : sign ++ [r] <+: sign ++ r :: rest := ⟨rest, by simp⟩
    rcases List.prefix_or_prefix_of_prefix hopening hsign with hle | hlonger
    · rcases List.prefix_concat_iff.mp hle with rfl | hle
      · exact absurd (List.prefix_refl _) (h r rfl)
      · exact hle
    · exact absurd hlonger (h r rfl)

private theorem isPrefixOf_pair (a b : Char) :
    [a, b].isPrefixOf (c :: cs) = (c = a && cs.head? = some b) := by
  cases cs with
  | nil => simp [List.isPrefixOf]
  | cons d ds =>
    rw [Bool.eq_iff_iff]
    simp only [List.isPrefixOf, List.head?_cons, Option.some.injEq, Bool.and_true,
      Bool.and_eq_true, beq_iff_eq, decide_eq_true_eq]
    exact and_congr eq_comm eq_comm

/-- Each symbol is the first in the table that it begins with, and begins no comment. -/
private theorem symbols_alone : ∀ entry ∈ symbols,
    (symbols.find? fun (text, _) => text.toList.isPrefixOf entry.1.toList) = some entry ∧
      ∀ opening ∈ ["(*", "//", "/*"], opening.toList.isPrefixOf entry.1.toList = false := by
  decide

private theorem symbols_marked : ∀ entry ∈ symbols, entry.1 ≠ "'" →
    entry.1.toList.head?.any isMark = true := by
  decide

/-- Every symbol but the tick begins with a mark. -/
theorem exists_mark (h : (text, kind) ∈ symbols) (htick : text ≠ "'") :
    ∃ c cs, text.toList = c :: cs ∧ isMark c = true := by
  have hmark := symbols_marked _ h htick
  cases htext : text.toList with
  | nil =>
    rw [htext] at hmark
    cases hmark
  | cons c cs =>
    rw [htext] at hmark
    exact ⟨c, cs, rfl, hmark⟩

theorem isSpace_of_isMark (h : isMark c = true) : isSpace c = false := by
  simp only [isMark, Bool.not_eq_true', Bool.or_eq_false_iff] at h
  exact h.1.1.1.1.1.1.1

theorem ne_tick_of_isMark (h : isMark c = true) : c ≠ '\'' := by
  rintro rfl
  cases h

theorem isGap_of_isMark (h : isMark c = true) : isGap c = false := by
  by_contra hgap
  simp only [isGap, Bool.not_eq_false, Bool.or_eq_true, decide_eq_true_eq] at hgap
  rcases hgap with rfl | rfl <;> cases h

private theorem ofCons_symbol {width : Nat} (hmark : isMark c = true)
    (hline : "//".toList.isPrefixOf (c :: cs) = false)
    (hblock : "/*".toList.isPrefixOf (c :: cs) = false)
    (hsymbol : symbol? 0 (c :: cs) = some (kind, width)) :
    ofCons 0 c cs = { kind := some kind, width := width } := by
  have hline : (c = '/' && cs.head? = some '/') = false := by rwa [← isPrefixOf_pair]
  have hblock : (c = '/' && cs.head? = some '*') = false := by rwa [← isPrefixOf_pair]
  simp only [isMark, Bool.not_eq_true', Bool.or_eq_false_iff, decide_eq_false_iff_not] at hmark
  obtain ⟨⟨⟨⟨⟨⟨⟨hspace, hdirective⟩, hname⟩, hescape⟩, hdollar⟩, hdigit⟩, htick⟩, hquote⟩ := hmark
  simp only [ofCons, hspace, hline, hblock, hdirective, hname, hescape, hdollar, hdigit, htick,
    hquote, hsymbol, decide_false, Bool.false_and, Bool.false_eq_true, if_false]

theorem symbol?_append (h : (text, kind) ∈ symbols) (hrest : Apart text rest) :
    symbol? 0 (text.toList ++ rest) = some (kind, text.length) := by
  obtain ⟨hfind, halone⟩ := symbols_alone _ h
  have hopening {opening : String} (hmem : opening ∈ openings) :
      opening.toList.isPrefixOf (text.toList ++ rest) = opening.toList.isPrefixOf text.toList :=
    isPrefixOf_append (hrest opening hmem)
  have hfind : (symbols.find? fun (opening, _) => opening.toList.isPrefixOf (text.toList ++ rest)) =
      some (text, kind) := by
    rw [← hfind]
    refine List.find?_congr fun entry hentry => hopening ?_
    exact List.mem_append_right _ (List.mem_map_of_mem hentry)
  have hattr : "(*".toList.isPrefixOf (text.toList ++ rest) = false := by
    rw [hopening (List.mem_append_left _ List.mem_cons_self)]
    exact halone "(*" List.mem_cons_self
  simp only [symbol?, hattr, hfind, Bool.false_and, Bool.false_eq_true, if_false, gt_iff_lt,
    Nat.lt_irrefl, decide_false, Bool.and_false, Option.map_some]

/-- A symbol kept apart from what is behind it. -/
theorem single_symbol (h : (text, kind) ∈ symbols) (htick : text ≠ "'") (hrest : Apart text rest) :
    ∃ c cs, text.toList = c :: cs ∧ Single (some kind) c cs rest := by
  obtain ⟨c, cs, htext, hmark⟩ := exists_mark h htick
  obtain ⟨-, halone⟩ := symbols_alone _ h
  have hcomment {opening : String} (hmem : opening ∈ ["(*", "//", "/*"]) :
      opening.toList.isPrefixOf (text.toList ++ rest) = false := by
    rw [isPrefixOf_append (hrest opening (List.mem_append_left _ hmem))]
    exact halone opening hmem
  have hsymbol := symbol?_append h hrest
  rw [← String.length_toList, htext] at hsymbol
  rw [htext] at hcomment
  exact ⟨c, cs, htext, ofCons_symbol hmark (hcomment (by decide)) (hcomment (by decide)) hsymbol⟩

/-- What stands behind the first character of a comment, a symbol or a bracket. -/
def isInner (c : Char) : Bool := openings.any (·.toList.tail.contains c)

theorem Apart.of_ends (hne : text.toList ≠ []) (h : Ends isInner rest) : Apart text rest := by
  rintro opening hopening r hr ⟨more, hmore⟩
  obtain ⟨c, cs, hcs⟩ := List.exists_cons_of_ne_nil hne
  have hmem : r ∈ opening.toList.tail := by
    rw [← hmore, hcs]
    simp
  have hinner : isInner r = true :=
    List.any_eq_true.mpr ⟨opening, hopening, List.contains_iff_mem.mpr hmem⟩
  rw [h r hr] at hinner
  cases hinner

/-- A symbol that nothing longer begins with. -/
theorem Apart.of_whole
    (h : ∀ opening ∈ openings, text.toList <+: opening.toList →
      opening.toList.length ≤ text.toList.length) :
    Apart text rest := by
  intro opening hopening r _ hlonger
  have hle := h opening hopening ((List.prefix_append _ _).trans hlonger)
  have hlength := hlonger.length_le
  rw [List.length_append, List.length_singleton] at hlength
  omega

/-- A parenthesis is kept apart unless it opens an attribute. -/
theorem Apart.paren (h : Ends (· = '*') rest) : Apart "(" rest := by
  have hopenings : ∀ opening ∈ openings, opening.toList.head? = some '(' →
      opening.toList.tail.head?.all (· = '*') = true := by decide
  rintro opening hopening r hr ⟨more, hmore⟩
  have hstar := hopenings opening hopening (by rw [← hmore]; rfl)
  rw [← hmore] at hstar
  exact absurd hstar (by simpa using h r hr)

end Symbols

section Words

variable {c : Char} {cs rest : List Char}

theorem single_blank (h : Ends isSpace rest) : Single none ' ' [] rest := by
  have htake : (' ' :: rest).takeWhile isSpace = [' '] := by
    rw [List.takeWhile_cons_of_pos (by decide), h.takeWhile]
  unfold Single ofCons
  rw [List.nil_append, if_pos (by decide), htake]

theorem isNameChar_of_isNameStart (h : isNameStart c = true) : isNameChar c = true := by
  simp only [isNameStart, isNameChar, Char.isAlphanum, Bool.or_eq_true] at h ⊢
  rcases h with h | h <;> simp [h]

theorem single_name (hstart : isNameStart c = true) (hcs : ∀ d ∈ cs, isNameChar d = true)
    (hword : Kind.ofSpelling? (String.ofList (c :: cs)) = none) (hrest : Ends isNameChar rest) :
    Single (some .identifier) c cs rest := by
  have htake : (c :: (cs ++ rest)).takeWhile isNameChar = c :: cs :=
    hrest.takeWhile_append (List.forall_mem_cons.mpr ⟨isNameChar_of_isNameStart hstart, hcs⟩)
  rw [Single, ofCons_name hstart, htake, hword]
  rfl

theorem single_systemName (hstart : isNameStart c = true) (hcs : ∀ d ∈ cs, isNameChar d = true)
    (hrest : Ends isNameChar rest) : Single (some .systemIdentifier) '$' (c :: cs) rest := by
  have htake : (c :: (cs ++ rest)).takeWhile isNameChar = c :: cs :=
    hrest.takeWhile_append (List.forall_mem_cons.mpr ⟨isNameChar_of_isNameStart hstart, hcs⟩)
  have hhead : (c :: (cs ++ rest)).head?.any isNameStart = true := hstart
  rw [Single, List.cons_append, ofCons_dollar hhead, htake, Nat.add_comm]
  rfl

end Words

end Piece

namespace Lexeme

variable {offset : Nat} {cs ds rest : List Char} {ts us : List Token}

theorem scan_skip (offset openBrackets : Nat) (cs rest : List Char) :
    scan cs.length offset openBrackets (cs ++ rest) =
      scan 0 (offset + Text.byteLength cs) openBrackets rest := by
  induction cs generalizing offset with
  | nil => rfl
  | cons c cs ih =>
    rw [List.length_cons, List.cons_append, scan, ih, Text.byteLength, Nat.add_assoc]

/-- Before `rest` and outside of attributes, the text `cs` is cut into lexemes without problems;
`ts` are the tokens among them. -/
def Cuts (offset : Nat) (cs rest : List Char) (ts : List Token) : Prop :=
  ∃ ls, scan 0 offset 0 (cs ++ rest) = ls ++ scan 0 (offset + Text.byteLength cs) 0 rest ∧
    (∀ l ∈ ls, l.problems = []) ∧ ls.filterMap Token.ofLexeme? = ts

theorem Cuts.nil : Cuts offset [] rest [] := ⟨[], rfl, List.forall_mem_nil _, rfl⟩

theorem Cuts.append (h : Cuts offset cs (ds ++ rest) ts)
    (h' : Cuts (offset + Text.byteLength cs) ds rest us) :
    Cuts offset (cs ++ ds) rest (ts ++ us) := by
  obtain ⟨ls, hls, hclean, rfl⟩ := h
  obtain ⟨ms, hms, hclean', rfl⟩ := h'
  refine ⟨ls ++ ms, ?_, ?_, List.filterMap_append⟩
  · rw [List.append_assoc, hls, hms, Text.byteLength_append, Nat.add_assoc, List.append_assoc]
  · exact List.forall_mem_append.mpr ⟨hclean, hclean'⟩

theorem Cuts.single {kind : Option Kind} {c : Char} (h : Piece.Single kind c cs rest)
    (hkind : bracketsAfter 0 kind = 0) :
    Cuts offset (c :: cs) rest (kind.map fun kind =>
      ⟨kind, String.ofList (c :: cs), offset, offset + Text.byteLength (c :: cs)⟩).toList := by
  refine ⟨[⟨kind, c :: cs, offset, []⟩], ?_, List.forall_mem_singleton.mpr rfl, ?_⟩
  · rw [List.cons_append, scan_cons, first, h]
    have htake : (c :: (cs ++ rest)).take (c :: cs).length = c :: cs := List.take_left
    rw [htake, hkind, List.length_cons, Nat.add_sub_cancel, scan_skip, Text.byteLength,
      Nat.add_assoc]
    rfl
  · cases kind <;> rfl

/-- Wherever `cs` stands before `rest`, outside of attributes, it is cut into lexemes without
problems whose tokens have the property `P`. -/
def Lexes (cs rest : List Char) (P : List Token → Prop) : Prop :=
  ∀ offset, ∃ ts, Cuts offset cs rest ts ∧ P ts

namespace Lexes

variable {P Q : List Token → Prop} {kind : Kind} {c : Char}

theorem nil : Lexes [] rest (· = []) := fun _ => ⟨[], .nil, rfl⟩

theorem mono (h : Lexes cs rest P) (himp : ∀ ts, P ts → Q ts) : Lexes cs rest Q := by
  intro offset
  obtain ⟨ts, hts, hP⟩ := h offset
  exact ⟨ts, hts, himp ts hP⟩

theorem append (h : Lexes cs (ds ++ rest) P) (h' : Lexes ds rest Q) :
    Lexes (cs ++ ds) rest fun ts => ∃ us vs, ts = us ++ vs ∧ P us ∧ Q vs := by
  intro offset
  obtain ⟨us, hus, hP⟩ := h offset
  obtain ⟨vs, hvs, hQ⟩ := h' (offset + Text.byteLength cs)
  exact ⟨us ++ vs, hus.append hvs, us, vs, rfl, hP, hQ⟩

theorem single (h : Piece.Single (some kind) c cs rest) (hkind : bracketsAfter 0 (some kind) = 0) :
    Lexes (c :: cs) rest fun ts =>
      ∃ t, ts = [t] ∧ t.kind = kind ∧ t.text = String.ofList (c :: cs) :=
  fun _ => ⟨_, .single h hkind, _, rfl, rfl, rfl⟩

theorem blank (hcs : Piece.Ends Piece.isSpace (cs ++ rest)) (h : Lexes cs rest P) :
    Lexes (' ' :: cs) rest P := by
  intro offset
  obtain ⟨ts, hts, hP⟩ := h (offset + Text.byteLength [' '])
  have hblank : Cuts offset [' '] (cs ++ rest) [] := .single (Piece.single_blank hcs) rfl
  exact ⟨ts, hblank.append hts, hP⟩

/-- A symbol kept apart from what is behind it. -/
theorem symbol {text : String} (hmem : (text, kind) ∈ Piece.symbols) (htick : text ≠ "'")
    (hapart : Piece.Apart text (cs ++ rest)) (h : Lexes cs rest P) :
    Lexes (text.toList ++ cs) rest fun ts => ∃ t us, ts = t :: us ∧ t.kind = kind ∧ P us := by
  have hsymbols : ∀ entry ∈ Piece.symbols, bracketsAfter 0 (some entry.2) = 0 := by decide
  obtain ⟨c, ds, htext, hsingle⟩ := Piece.single_symbol hmem htick hapart
  rw [htext]
  refine (append (single hsingle (hsymbols _ hmem)) h).mono ?_
  rintro _ ⟨_, us, rfl, ⟨t, rfl, hkind, -⟩, hus⟩
  exact ⟨t, us, rfl, hkind, hus⟩

/-- A symbol of one character. -/
theorem sign (c : Char) (kind : Kind) (hmem : (String.ofList [c], kind) ∈ Piece.symbols)
    (htick : c ≠ '\'')
    (hapart : Piece.Apart (String.ofList [c]) (cs ++ rest)) (h : Lexes cs rest P) :
    Lexes (c :: cs) rest fun ts => ∃ t us, ts = t :: us ∧ t.kind = kind ∧ P us := by
  have hne : String.ofList [c] ≠ "'" := by
    intro heq
    have hlist := congrArg String.toList heq
    rw [String.toList_ofList] at hlist
    cases hlist
    exact htick rfl
  have hsymbol := symbol hmem hne hapart h
  rwa [String.toList_ofList] at hsymbol

/-- The symbols that no longer one begins with, and no comment. -/
def wholes : List (String × Kind) :=
  [(")", .rightParen), ("[", .leftBracket), ("]", .rightBracket), ("\x7b", .leftBrace),
   ("\x7d", .rightBrace), (",", .comma)]

theorem whole (c : Char) (kind : Kind) (hmem : (String.ofList [c], kind) ∈ wholes)
    (h : Lexes cs rest P) :
    Lexes (c :: cs) rest fun ts => ∃ t us, ts = t :: us ∧ t.kind = kind ∧ P us := by
  have hwholes : ∀ entry ∈ wholes, entry ∈ Piece.symbols ∧ entry.1 ≠ "'" ∧
      ∀ opening ∈ Piece.openings, entry.1.toList <+: opening.toList →
        opening.toList.length ≤ entry.1.toList.length := by decide
  obtain ⟨hsymbol, htick, hlonger⟩ := hwholes _ hmem
  refine sign c kind hsymbol ?_ (.of_whole hlonger) h
  rintro rfl
  exact htick rfl

end Lexes

end Lexeme

/-- A whole text that is cut without problems. -/
theorem Lexeme.Lexes.lex {cs : List Char} {P : List Token → Prop} (h : Lexeme.Lexes cs [] P)
    (file : Nat) :
    ∃ ts, Netlist.lex file (String.ofList cs) = (ts ++ [Token.endAt (Text.byteLength cs)], []) ∧
      P ts := by
  obtain ⟨ts, ⟨ls, hls, hclean, hts⟩, hP⟩ := h 0
  have hofText : Lexeme.ofText (String.ofList cs).toList = ls := by
    rw [List.append_nil] at hls
    rw [String.toList_ofList, Lexeme.ofText, hls]
    exact List.append_nil ls
  have htokens := lex_tokens file (String.ofList cs)
  have hproblems := lex_problems file (String.ofList cs)
  rw [hofText, hts, String.toList_ofList] at htokens
  have hnone : ls.flatMap (Lexeme.diagnostics file) = [] := by
    refine List.flatMap_eq_nil_iff.mpr fun l hl => ?_
    rw [Lexeme.diagnostics, hclean l hl]
    rfl
  rw [hofText, hnone] at hproblems
  exact ⟨ts, Prod.ext htokens hproblems, hP⟩

end Netlist
