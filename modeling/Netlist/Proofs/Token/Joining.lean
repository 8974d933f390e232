import Netlist.Proofs.Token.Cuts
import Netlist.Proofs.Token.Strings
import Mathlib.Data.List.Basic

/-!
One text behind another, with a newline between them. No lexeme has a newline in it but blanks,
comments, strings and escaped names, and none of these goes on behind the end of a text that is
lexed without problems. So the first text is cut as if it stood alone, but for blanks at its end,
and the second one is cut as if it stood alone if no attribute is left open before it.
-/
namespace Netlist

namespace Piece

section Widths

theorem length_commentTail (cs : List Char) : (commentTail cs).1 ≤ cs.length := by
  induction cs with
  | nil => exact Nat.le_refl _
  | cons c cs ih =>
    unfold commentTail
    split
    next hclose =>
      rw [Bool.and_eq_true, decide_eq_true_eq, decide_eq_true_eq] at hclose
      obtain ⟨rest, rfl⟩ := List.head?_eq_some_iff.mp hclose.2
      simp
    next => exact Nat.succ_le_succ ih

theorem length_stringTail (cs : List Char) : (stringTail cs).1 ≤ cs.length := by
  fun_induction stringTail cs <;> simp_all

theorem length_basedTail (cs : List Char) : (basedTail cs).1 ≤ cs.length := by
  have hflag : (if cs.head?.any isSignFlag then 1 else 0) ≤ cs.length := by
    cases cs with
    | nil => exact Nat.le_refl _
    | cons c cs => split <;> simp
  unfold basedTail
  generalize (if cs.head?.any isSignFlag then 1 else 0) = flag at hflag
  dsimp only
  split
  next => exact hflag
  next radix rest hdrop =>
    have hlength := congrArg List.length hdrop
    rw [List.length_drop, List.length_cons] at hlength
    split
    next =>
      have hgap := (List.takeWhile_sublist isGap (l := rest)).length_le
      have hdigits := (List.takeWhile_sublist (isBasedDigit radix)
        (l := rest.drop (rest.takeWhile isGap).length)).length_le
      rw [List.length_drop] at hdigits
      dsimp only
      omega
    next => exact hflag

theorem length_fractionWidth (cs : List Char) : fractionWidth cs ≤ cs.length := by
  unfold fractionWidth
  split
  next c cs =>
    split
    · have hdigits := (List.takeWhile_sublist isDecimal (l := c :: cs)).length_le
      rw [List.length_cons]
      omega
    · exact Nat.zero_le _
  next => exact Nat.zero_le _

theorem length_exponentWidth (cs : List Char) : exponentWidth cs ≤ cs.length := by
  unfold exponentWidth
  split
  next => exact Nat.le_refl _
  next mark cs =>
    split
    · have hsign : (if cs.head? = some '+' || cs.head? = some '-' then 1 else 0) ≤ cs.length := by
        cases cs with
        | nil => exact Nat.le_refl _
        | cons c cs => split <;> simp
      generalize (if cs.head? = some '+' || cs.head? = some '-' then 1 else 0) = sign at hsign
      have hdigits := (List.takeWhile_sublist isDecimal (l := cs.drop sign)).length_le
      rw [List.length_drop] at hdigits
      dsimp only
      rw [List.length_cons]
      omega
    · exact Nat.zero_le _

theorem width_number_le (cs : List Char) : (number cs).width ≤ cs.length := by
  have hsize := (List.takeWhile_sublist isDecimal (l := cs)).length_le
  unfold number
  dsimp only
  generalize hafter : cs.drop (cs.takeWhile isDecimal).length = after
  have hlength := congrArg List.length hafter
  rw [List.length_drop] at hlength
  have hgap := (List.takeWhile_sublist isGap (l := after)).length_le
  split
  next hbased =>
    have hmore : after.drop (after.takeWhile isGap).length ≠ [] := by
      intro hnil
      rw [hnil] at hbased
      cases hbased
    have htail := length_basedTail (after.drop ((after.takeWhile isGap).length + 1))
    rw [← List.length_pos_iff, List.length_drop] at hmore
    rw [List.length_drop] at htail
    dsimp only
    omega
  next =>
    have hfraction := length_fractionWidth after
    have hexponent := length_exponentWidth (after.drop (fractionWidth after))
    rw [List.length_drop] at hexponent
    dsimp only
    omega

theorem width_symbol_le {openBrackets : Nat} {cs : List Char} {kind : Kind} {width : Nat}
    (h : symbol? openBrackets cs = some (kind, width)) : width ≤ cs.length := by
  have hprefix {text : String} (htext : text.toList.isPrefixOf cs = true) :
      text.length ≤ cs.length := by
    rw [← String.length_toList]
    exact (List.isPrefixOf_iff_prefix.mp htext).length_le
  unfold symbol? at h
  split at h
  next hopen =>
    cases h
    rw [Bool.and_eq_true] at hopen
    exact hprefix hopen.1
  next =>
    split at h
    next hclose =>
      cases h
      rw [Bool.and_eq_true] at hclose
      exact hprefix hclose.1
    next =>
      obtain ⟨entry, hfound, heq⟩ := Option.map_eq_some_iff.mp h
      cases heq
      have htext := List.find?_some hfound
      exact hprefix htext

/-- No piece is longer than the text. -/
theorem width_le (openBrackets : Nat) (c : Char) (cs : List Char) :
    (ofCons openBrackets c cs).width ≤ (c :: cs).length := by
  have hcut := cut_ofCons openBrackets c cs
  have hclass (p : Char → Bool) (ds : List Char) : (ds.takeWhile p).length ≤ ds.length :=
    (List.takeWhile_sublist p).length_le
  have hhead {p : Char → Bool} (h : cs.head?.any p = true) : 2 ≤ (c :: cs).length := by
    cases cs with
    | nil => cases h
    | cons d ds => simp
  generalize ofCons openBrackets c cs = piece at hcut
  cases hcut with
  | space _ => exact hclass _ _
  | line _ => exact hclass _ _
  | block hstar =>
    obtain ⟨ds, rfl⟩ := List.head?_eq_some_iff.mp hstar
    have htail := length_commentTail ds
    simp only [List.drop_succ_cons, List.drop_zero, List.length_cons]
    omega
  | directive _ => exact hclass _ _
  | name _ => exact hclass _ _
  | escape =>
    have htail := hclass (fun d => !isSpace d) cs
    simp only [List.length_cons]
    omega
  | system =>
    have htail := hclass isNameChar cs
    simp only [List.length_cons]
    omega
  | flawed _ => simp
  | digits _ => exact width_number_le _
  | based _ _ =>
    have htail := length_basedTail cs
    simp only [List.length_cons]
    omega
  | fill _ hfill => exact hhead hfill
  | string =>
    have htail := length_stringTail cs
    simp only [List.length_cons]
    omega
  | openString =>
    have htail := length_stringTail cs
    simp only [List.length_cons]
    omega
  | symbol hsymbol => exact width_symbol_le hsymbol

end Widths

section Newline

variable {c : Char} {cs : List Char}

/-- A class without the newline ends before it. -/
theorem takeWhile_newline {p : Char → Bool} (hp : p '\n' = false) (cs rest : List Char) :
    (cs ++ '\n' :: rest).takeWhile p = cs.takeWhile p := by
  induction cs with
  | nil => exact List.takeWhile_cons_of_neg (by simp [hp])
  | cons c cs ih => rw [List.cons_append, List.takeWhile_cons, List.takeWhile_cons, ih]

theorem any_newline {p : Char → Bool} (hp : p '\n' = false) (cs rest : List Char) :
    (cs ++ '\n' :: rest).head?.any p = cs.head?.any p := by
  cases cs with
  | nil => exact hp
  | cons c cs => rfl

theorem head?_newline {d : Char} (hd : d ≠ '\n') (cs rest : List Char) :
    (cs ++ '\n' :: rest).head? = some d ↔ cs.head? = some d := by
  cases cs with
  | nil => simp [hd.symm]
  | cons c cs => rfl

theorem drop_newline {n : Nat} (h : n ≤ cs.length) (rest : List Char) :
    (cs ++ '\n' :: rest).drop n = cs.drop n ++ '\n' :: rest :=
  List.drop_append_of_le_length h

theorem beginsBased_newline (cs rest : List Char) :
    beginsBased (cs ++ '\n' :: rest) = beginsBased cs := by
  cases cs with
  | nil => rfl
  | cons c cs =>
    by_cases hc : c = '\''
    · subst hc
      cases cs with
      | nil => rfl
      | cons d cs => rfl
    · simp [beginsBased, hc]

theorem isBasedDigit_newline (radix : Char) : isBasedDigit radix '\n' = false := by
  unfold isBasedDigit
  split <;> decide

theorem basedTail_newline (cs rest : List Char) :
    basedTail (cs ++ '\n' :: rest) = basedTail cs := by
  have hflag : (if cs.head?.any isSignFlag then 1 else 0) ≤ cs.length := by
    cases cs with
    | nil => exact Nat.le_refl _
    | cons c cs => split <;> simp
  unfold basedTail
  rw [any_newline (by decide)]
  generalize (if cs.head?.any isSignFlag then 1 else 0) = flag at hflag
  dsimp only
  rw [drop_newline hflag]
  cases hdrop : cs.drop flag with
  | nil => rfl
  | cons radix ds =>
    dsimp only [List.cons_append]
    rw [takeWhile_newline (by decide), drop_newline (List.takeWhile_sublist isGap).length_le,
      takeWhile_newline (isBasedDigit_newline radix)]

theorem fractionWidth_newline (cs rest : List Char) :
    fractionWidth (cs ++ '\n' :: rest) = fractionWidth cs := by
  cases cs with
  | nil => rfl
  | cons c cs =>
    by_cases hc : c = '.'
    · subst hc
      cases cs with
      | nil => rfl
      | cons d cs =>
        have htake := takeWhile_newline (p := isDecimal) (by decide) (d :: cs) rest
        rw [List.cons_append] at htake
        rw [List.cons_append, List.cons_append, fractionWidth, fractionWidth, htake]
    · simp [fractionWidth, hc]

theorem exponentWidth_newline (cs rest : List Char) :
    exponentWidth (cs ++ '\n' :: rest) = exponentWidth cs := by
  cases cs with
  | nil => rfl
  | cons mark cs =>
    have hsign : (if cs.head? = some '+' || cs.head? = some '-' then 1 else 0) ≤ cs.length := by
      cases cs with
      | nil => exact Nat.le_refl _
      | cons c cs => split <;> simp
    rw [List.cons_append, exponentWidth, exponentWidth]
    simp only [head?_newline (show '+' ≠ '\n' by decide), head?_newline (show '-' ≠ '\n' by decide)]
    rw [drop_newline hsign, takeWhile_newline (by decide)]

theorem number_newline (cs rest : List Char) : number (cs ++ '\n' :: rest) = number cs := by
  have hsize := (List.takeWhile_sublist isDecimal (l := cs)).length_le
  unfold number
  dsimp only
  rw [takeWhile_newline (p := isDecimal) (by decide), drop_newline hsize]
  generalize cs.drop (cs.takeWhile isDecimal).length = after
  have hgap := (List.takeWhile_sublist isGap (l := after)).length_le
  rw [takeWhile_newline (by decide), drop_newline hgap, beginsBased_newline, fractionWidth_newline,
    drop_newline (length_fractionWidth after), exponentWidth_newline]
  split
  next hbased =>
    have hmore : after.drop (after.takeWhile isGap).length ≠ [] := by
      intro hnil
      rw [hnil] at hbased
      cases hbased
    rw [← List.length_pos_iff, List.length_drop] at hmore
    rw [drop_newline (by omega), basedTail_newline]
  next => rfl

theorem isPrefixOf_newline {text : List Char} (htext : '\n' ∉ text) (cs rest : List Char) :
    text.isPrefixOf (cs ++ '\n' :: rest) = text.isPrefixOf cs := by
  induction text generalizing cs with
  | nil => rfl
  | cons d ds ih =>
    rw [List.mem_cons, not_or] at htext
    obtain ⟨hd, hds⟩ := htext
    cases cs with
    | nil => simp [List.isPrefixOf, Ne.symm hd]
    | cons c cs => rw [List.cons_append, List.isPrefixOf, List.isPrefixOf, ih hds]

/-- A symbol has no newline in it. -/
theorem symbol?_newline (openBrackets : Nat) (cs rest : List Char) :
    symbol? openBrackets (cs ++ '\n' :: rest) = symbol? openBrackets cs := by
  have hsymbols : ∀ entry ∈ symbols, '\n' ∉ entry.1.toList := by decide
  unfold symbol?
  rw [isPrefixOf_newline (by decide), isPrefixOf_newline (by decide),
    isPrefixOf_newline (by decide)]
  congr 3
  exact List.find?_congr fun entry hentry => isPrefixOf_newline (hsymbols entry hentry) cs rest

theorem commentTail_newline (h : (commentTail cs).2 = true) (rest : List Char) :
    commentTail (cs ++ '\n' :: rest) = commentTail cs := by
  induction cs with
  | nil => cases h
  | cons c cs ih =>
    rw [commentTail] at h
    rw [List.cons_append, commentTail, commentTail]
    simp only [head?_newline (show '/' ≠ '\n' by decide)]
    split
    next => rfl
    next hopen =>
      rw [if_neg hopen] at h
      rw [ih h]

theorem stringTail_newline (h : (stringTail cs).2 = true) (rest : List Char) :
    stringTail (cs ++ '\n' :: rest) = stringTail cs := by
  fun_induction stringTail cs with
  | case1 => cases h
  | case2 => cases h
  | case3 d ds width closed htail ih =>
    rw [List.cons_append, List.cons_append, stringTail, ih (by rw [htail]; exact h), htail]
  | case4 ds => rfl
  | case5 => cases h
  | case6 d ds hlone hpair hquote hbreak width closed htail ih =>
    have hstands := standsInString_of (ne_backslash hlone hpair) hquote hbreak
    rw [List.cons_append, stringTail_plain hstands, ih (by rw [htail]; exact h), htail]

/-- A newline ends every piece but blanks, if it ends strings and block comments. -/
theorem ofCons_newline_of {openBrackets : Nat} {rest : List Char} (hspace : isSpace c = false)
    (hstring : c = '"' → stringTail (cs ++ '\n' :: rest) = stringTail cs)
    (hcomment : ∀ ds, c = '/' → cs = '*' :: ds →
      commentTail (ds ++ '\n' :: rest) = commentTail ds) :
    ofCons openBrackets c (cs ++ '\n' :: rest) = ofCons openBrackets c cs := by
  by_cases hquote : c = '"'
  · subst hquote
    simp [ofCons, isSpace, isNameStart, hstring rfl]
  by_cases hblock : (c = '/' && cs.head? = some '*') = true
  · rw [Bool.and_eq_true, decide_eq_true_eq, decide_eq_true_eq] at hblock
    obtain ⟨rfl, hstar⟩ := hblock
    obtain ⟨ds, rfl⟩ := List.head?_eq_some_iff.mp hstar
    simp [ofCons, isSpace, hcomment ds rfl rfl]
  · have hline (d : Char) (hd : d ≠ '\n') :
        decide ((cs ++ '\n' :: rest).head? = some d) = decide (cs.head? = some d) :=
      decide_eq_decide.mpr (head?_newline hd cs rest)
    have hclass {p : Char → Bool} (hp : p '\n' = false) :
        (c :: (cs ++ '\n' :: rest)).takeWhile p = (c :: cs).takeWhile p :=
      takeWhile_newline hp (c :: cs) rest
    have hnumber : number (c :: (cs ++ '\n' :: rest)) = number (c :: cs) :=
      number_newline (c :: cs) rest
    have hsymbol : symbol? openBrackets (c :: (cs ++ '\n' :: rest)) =
        symbol? openBrackets (c :: cs) :=
      symbol?_newline openBrackets (c :: cs) rest
    have hcomment : (c :: (cs ++ '\n' :: rest)).takeWhile (fun d => decide (d ≠ '\n')) =
        (c :: cs).takeWhile (fun d => decide (d ≠ '\n')) := hclass (by decide)
    unfold ofCons
    rw [hline '/' (by decide), hline '*' (by decide), hclass (p := isNameChar) (by decide), hnumber,
      hsymbol, any_newline (by decide), any_newline (by decide), any_newline (by decide),
      basedTail_newline, takeWhile_newline (by decide), takeWhile_newline (by decide), hcomment]
    simp only [hspace, hquote, hblock, Bool.false_eq_true, if_false]

/-- A newline ends every piece but blanks, unless it has a problem. -/
theorem ofCons_newline {openBrackets : Nat} (hspace : isSpace c = false)
    (hclean : (ofCons openBrackets c cs).problems = []) (rest : List Char) :
    ofCons openBrackets c (cs ++ '\n' :: rest) = ofCons openBrackets c cs := by
  refine ofCons_newline_of hspace ?_ ?_
  · rintro rfl
    by_cases hclosed : (stringTail cs).2 = true
    · exact stringTail_newline hclosed rest
    · simp [ofCons, isSpace, isNameStart, hclosed] at hclean
  · rintro ds rfl rfl
    by_cases hclosed : (commentTail ds).2 = true
    · exact commentTail_newline hclosed rest
    · simp [ofCons, isSpace, hclosed] at hclean

end Newline

end Piece

namespace Lexeme

variable {β : Type} {offset openBrackets : Nat} {cs rest : List Char}

/-- The first lexeme, and those of what stands behind it. -/
theorem scan_step (offset openBrackets : Nat) (c : Char) (cs : List Char) :
    scan 0 offset openBrackets (c :: cs) = first offset openBrackets c cs ::
      scan 0 (offset + Text.byteLength (first offset openBrackets c cs).text)
        (bracketsAfter openBrackets (Piece.ofCons openBrackets c cs).kind)
        ((c :: cs).drop (Piece.ofCons openBrackets c cs).width) := by
  obtain ⟨width, hwidth⟩ := Nat.exists_eq_add_one.mpr (Piece.width_pos openBrackets c cs)
  have hle := Piece.width_le openBrackets c cs
  rw [hwidth, List.length_cons] at hle
  have htake : (cs.take width).length = width := by
    rw [List.length_take]
    omega
  have hskip := scan_skip (offset + c.utf8Size)
    (bracketsAfter openBrackets (Piece.ofCons openBrackets c cs).kind) (cs.take width)
    (cs.drop width)
  rw [htake, List.take_append_drop] at hskip
  rw [scan_cons, first, hwidth, Nat.add_sub_cancel, hskip, List.take_succ_cons,
    List.drop_succ_cons, Text.byteLength, Nat.add_assoc]

/-- Observations of lexemes that blanks and comments do not show in. -/
def Overlooks (g : Lexeme → List β) : Prop := ∀ l, l.kind = none → l.problems = [] → g l = []

section Observed

variable {g : Lexeme → List β} (hg : Overlooks g)

include hg

private theorem flatMap_dropWhile (offset openBrackets : Nat) (cs : List Char) :
    (scan 0 offset openBrackets cs).flatMap g =
      (scan 0 (offset + Text.byteLength (cs.takeWhile Piece.isSpace)) openBrackets
        (cs.dropWhile Piece.isSpace)).flatMap g := by
  cases cs with
  | nil => rfl
  | cons c cs =>
    by_cases hspace : Piece.isSpace c = true
    · have hpiece : Piece.ofCons openBrackets c cs =
          { kind := none, width := ((c :: cs).takeWhile Piece.isSpace).length } := if_pos hspace
      have hdrop : (c :: cs).drop ((c :: cs).takeWhile Piece.isSpace).length =
          (c :: cs).dropWhile Piece.isSpace := by
        conv =>
          lhs; arg 2
          rw [← List.takeWhile_append_dropWhile (p := Piece.isSpace) (l := c :: cs)]
        exact List.drop_left
      have hfirst : g (first offset openBrackets c cs) = [] :=
        hg _ (by rw [first, hpiece]) (by rw [first, hpiece])
      rw [scan_step, List.flatMap_cons, hfirst, List.nil_append, first, hpiece]
      dsimp only
      rw [Piece.take_takeWhile, hdrop]
      rfl
    · rw [List.takeWhile_cons_of_neg hspace, List.dropWhile_cons_of_neg hspace]
      rfl

/-- Blanks in front do not show. -/
theorem flatMap_spaces {spaces : List Char} (h : ∀ c ∈ spaces, Piece.isSpace c = true)
    (offset openBrackets : Nat) (rest : List Char) :
    (scan 0 offset openBrackets (spaces ++ rest)).flatMap g =
      (scan 0 (offset + Text.byteLength spaces) openBrackets rest).flatMap g := by
  rw [flatMap_dropWhile hg, flatMap_dropWhile hg _ _ rest, List.takeWhile_append_of_pos h,
    List.dropWhile_append_of_pos h, Text.byteLength_append, Nat.add_assoc]

/-- The first lexeme shows as if nothing came behind the newline. -/
private theorem flatMap_first (offset openBrackets : Nat) (c : Char) (cs rest : List Char)
    (hclean : (Piece.ofCons openBrackets c cs).problems = []) :
    (scan 0 offset openBrackets (c :: cs ++ '\n' :: rest)).flatMap g =
      g (first offset openBrackets c cs) ++
        (scan 0 (offset + Text.byteLength (first offset openBrackets c cs).text)
          (bracketsAfter openBrackets (Piece.ofCons openBrackets c cs).kind)
          ((c :: cs).drop (Piece.ofCons openBrackets c cs).width ++ '\n' :: rest)).flatMap g := by
  have hle := Piece.width_le openBrackets c cs
  by_cases hspace : Piece.isSpace c = true
  · have hpiece : Piece.ofCons openBrackets c cs =
        { kind := none, width := ((c :: cs).takeWhile Piece.isSpace).length } := if_pos hspace
    have hblank : g (first offset openBrackets c cs) = [] :=
      hg _ (by rw [first, hpiece]) (by rw [first, hpiece])
    have hspaces : ∀ d ∈ (first offset openBrackets c cs).text, Piece.isSpace d = true := by
      rw [first, hpiece]
      dsimp only
      rw [Piece.take_takeWhile]
      exact fun d hd => List.mem_takeWhile_imp hd
    rw [hblank, List.nil_append, hpiece]
    dsimp only [bracketsAfter]
    rw [← flatMap_spaces hg hspaces, first, hpiece, ← List.append_assoc, List.take_append_drop]
  · have hpiece := Piece.ofCons_newline (Bool.eq_false_iff.mpr hspace) hclean rest
    have hfirst : first offset openBrackets c (cs ++ '\n' :: rest) =
        first offset openBrackets c cs := by
      rw [first, first, hpiece, ← List.cons_append, List.take_append_of_le_length hle]
    rw [List.cons_append, scan_step, List.flatMap_cons, hfirst, hpiece, ← List.cons_append,
      Piece.drop_newline hle]

/-- What is observed of a text without problems and, behind a newline, of another one. -/
theorem flatMap_joined (cs rest : List Char) (offset openBrackets : Nat)
    (hclean : ∀ l ∈ scan 0 offset openBrackets cs, l.problems = []) :
    (scan 0 offset openBrackets (cs ++ '\n' :: rest)).flatMap g =
      (scan 0 offset openBrackets cs).flatMap g ++
        (scan 0 (offset + Text.byteLength cs + 1)
          ((scan 0 offset openBrackets cs).foldl (fun n l => bracketsAfter n l.kind) openBrackets)
          rest).flatMap g := by
  induction hlength : cs.length using Nat.strong_induction_on generalizing cs offset openBrackets
  next n ih =>
  subst hlength
  cases cs with
  | nil => exact flatMap_spaces hg (List.forall_mem_singleton.mpr rfl) offset openBrackets rest
  | cons c cs =>
    have hpos := Piece.width_pos openBrackets c cs
    have hshorter : ((c :: cs).drop (Piece.ofCons openBrackets c cs).width).length <
        (c :: cs).length := by
      rw [List.length_drop, List.length_cons]
      omega
    have hbytes : Text.byteLength (c :: cs) =
        Text.byteLength (first offset openBrackets c cs).text +
          Text.byteLength ((c :: cs).drop (Piece.ofCons openBrackets c cs).width) := by
      rw [first, ← Text.byteLength_append, List.take_append_drop]
    rw [scan_step] at hclean ⊢
    obtain ⟨hfirst, hlater⟩ := List.forall_mem_cons.mp hclean
    rw [flatMap_first hg offset openBrackets c cs rest hfirst, ih _ hshorter _ _ _ hlater rfl,
      List.flatMap_cons, List.foldl_cons, hbytes, List.append_assoc]
    simp only [Nat.add_assoc]
    rfl

end Observed

/-- The same lexeme, farther back in a text. -/
def shift (n : Nat) (l : Lexeme) : Lexeme := { l with start := l.start + n }

theorem scan_shift (n skip offset openBrackets : Nat) (cs : List Char) :
    scan skip (offset + n) openBrackets cs = (scan skip offset openBrackets cs).map (shift n) := by
  induction cs generalizing skip offset openBrackets with
  | nil => cases skip <;> rfl
  | cons c cs ih =>
    cases skip with
    | succ skip => rw [scan, scan, Nat.add_right_comm, ih]
    | zero =>
      rw [scan_cons, scan_cons, List.map_cons, Nat.add_right_comm, ih]
      rfl

end Lexeme

/-- The same span, farther back in a text. -/
def Span.shift (n : Nat) (s : Span) : Span := { s with start := s.start + n, stop := s.stop + n }

/-- The same token, farther back in a text. -/
def Token.shift (n : Nat) (t : Token) : Token := { t with start := t.start + n, stop := t.stop + n }

theorem Token.ofLexeme?_shift (n : Nat) (l : Lexeme) :
    Token.ofLexeme? (l.shift n) = (Token.ofLexeme? l).map (Token.shift n) := by
  have hstop : (l.shift n).stop = l.stop + n := Nat.add_right_comm _ _ _
  unfold Token.ofLexeme?
  rw [hstop]
  cases hkind : l.kind <;> simp [Lexeme.shift, Token.shift, hkind]

/-- How many attribute brackets are open behind some tokens. -/
def openAttributes (ts : List Token) : Nat :=
  ts.foldl (fun n t => Lexeme.bracketsAfter n t.kind) 0

theorem openAttributes_lexemes (ls : List Lexeme) :
    openAttributes (ls.filterMap Token.ofLexeme?) =
      ls.foldl (fun n l => Lexeme.bracketsAfter n l.kind) 0 := by
  unfold openAttributes
  generalize 0 = n
  induction ls generalizing n with
  | nil => rfl
  | cons l ls ih =>
    rw [List.foldl_cons, ← ih, List.filterMap_cons]
    cases hkind : l.kind with
    | none => simp [Token.ofLexeme?, hkind, Lexeme.bracketsAfter]
    | some kind => simp [Token.ofLexeme?, hkind]

/-- How far a text is moved back by another one in front of it. -/
def lead (first : String) : Nat := Text.byteLength first.toList + 1

theorem toList_joined (first second : String) :
    (first ++ "\n" ++ second).toList = first.toList ++ '\n' :: second.toList := by
  simp

/-- The second text ends where both together end. -/
theorem endAt_joined (first second : String) :
    Token.endAt (Text.byteLength (first ++ "\n" ++ second).toList) =
      (Token.endAt (Text.byteLength second.toList)).shift (lead first) := by
  have hbytes : Text.byteLength (first ++ "\n" ++ second).toList =
      Text.byteLength second.toList + lead first := by
    have hone : '\n'.utf8Size = 1 := by decide
    rw [toList_joined, Text.byteLength_append, Text.byteLength, lead]
    omega
  rw [hbytes]
  rfl

/-- Two texts with a newline between them have the tokens of the first and then those of the second,
if both are lexed without problems and no attribute is open behind the first. -/
theorem lex_joined {file : Nat} {first second : String} (hfirst : (lex file first).2 = [])
    (hsecond : (lex file second).2 = [])
    (hclosed : openAttributes (lex file first).1.dropLast = 0) :
    lex file (first ++ "\n" ++ second) =
      ((lex file first).1.dropLast ++ (lex file second).1.map (Token.shift (lead first)), []) := by
  have hclean : ∀ l ∈ Lexeme.ofText first.toList, l.problems = [] := fun l hl =>
    Lexeme.problems_of_clean hl hfirst
  rw [lex_tokens, List.dropLast_concat, openAttributes_lexemes] at hclosed
  have hjoined {β : Type} {g : Lexeme → List β} (hg : Lexeme.Overlooks g) :
      (Lexeme.ofText (first ++ "\n" ++ second).toList).flatMap g =
        (Lexeme.ofText first.toList).flatMap g ++
          ((Lexeme.ofText second.toList).map (Lexeme.shift (lead first))).flatMap g := by
    have hscan := Lexeme.flatMap_joined hg first.toList second.toList 0 0 hclean
    rw [← Lexeme.ofText, ← Lexeme.ofText, hclosed, Nat.add_assoc, Lexeme.scan_shift] at hscan
    rw [toList_joined]
    exact hscan
  have htokens : (Lexeme.ofText (first ++ "\n" ++ second).toList).filterMap Token.ofLexeme? =
      (Lexeme.ofText first.toList).filterMap Token.ofLexeme? ++
        ((Lexeme.ofText second.toList).filterMap Token.ofLexeme?).map
          (Token.shift (lead first)) := by
    have hg : Lexeme.Overlooks fun l => (Token.ofLexeme? l).toList := by
      intro l hkind _
      simp [Token.ofLexeme?, hkind]
    rw [List.filterMap_eq_flatMap_toList, hjoined hg, ← List.filterMap_eq_flatMap_toList,
      ← List.filterMap_eq_flatMap_toList, List.filterMap_map, List.map_filterMap]
    congr 1
    exact List.filterMap_congr fun l _ => Token.ofLexeme?_shift (lead first) l
  have hproblems : (lex file (first ++ "\n" ++ second)).2 = [] := by
    have hg : Lexeme.Overlooks (Lexeme.diagnostics file) := by
      intro l _ hnone
      rw [Lexeme.diagnostics, hnone, List.map_nil]
    rw [lex_problems, hjoined hg, ← lex_problems, hfirst, List.nil_append, List.flatMap_map,
      List.flatMap_eq_nil_iff]
    intro l hl
    rw [Lexeme.diagnostics, Lexeme.shift, Lexeme.problems_of_clean hl hsecond, List.map_nil]
  refine Prod.ext ?_ hproblems
  rw [lex_tokens, lex_tokens, lex_tokens, List.dropLast_concat, htokens, endAt_joined,
    List.map_append, List.append_assoc]
  rfl

end Netlist
