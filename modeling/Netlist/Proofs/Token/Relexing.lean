import Netlist.Proofs.Token.Strings
import Netlist.Proofs.Token.Tiling

/-!
The tokens of a text, each on a line of its own, are lexed to themselves. A lexeme is found by
looking at the characters it takes and a few behind them; without those it is found all the same,
and a line break behind it adds nothing. Nothing else of the text before it counts but the number
of open attribute brackets, and these are kept with the tokens.
-/
namespace Netlist

namespace Piece

section Truncation

variable {ts us : List Char}

/-- A class that ends inside a text does not look behind it. -/
private theorem takeWhile_take {p : Char → Bool} (ts us : List Char)
    (h : ((ts ++ us).takeWhile p).length ≤ ts.length) :
    ts.takeWhile p = (ts ++ us).takeWhile p := by
  induction ts with
  | nil =>
    rw [List.nil_append, List.length_nil, Nat.le_zero, List.length_eq_zero_iff] at h
    exact h.symm
  | cons t ts ih =>
    rw [List.cons_append] at h ⊢
    by_cases ht : p t = true
    · rw [List.takeWhile_cons_of_pos ht, List.length_cons, List.length_cons,
        Nat.succ_le_succ_iff] at h
      rw [List.takeWhile_cons_of_pos ht, List.takeWhile_cons_of_pos ht, ih h]
    · rw [List.takeWhile_cons_of_neg ht, List.takeWhile_cons_of_neg ht]

/-- The same for a gap and a class behind it. -/
private theorem takeWhile_behindGap {p : Char → Bool} (ts us : List Char)
    (h : ((ts ++ us).takeWhile isGap).length +
      (((ts ++ us).drop ((ts ++ us).takeWhile isGap).length).takeWhile p).length ≤ ts.length) :
    ts.takeWhile isGap = (ts ++ us).takeWhile isGap ∧
      (ts.drop (ts.takeWhile isGap).length).takeWhile p =
        ((ts ++ us).drop ((ts ++ us).takeWhile isGap).length).takeWhile p := by
  have hgap : ts.takeWhile isGap = (ts ++ us).takeWhile isGap := takeWhile_take ts us (by omega)
  have hle := (List.takeWhile_sublist isGap (l := ts)).length_le
  rw [← hgap, List.drop_append_of_le_length hle] at h ⊢
  exact ⟨rfl, takeWhile_take _ us (by rw [List.length_drop]; omega)⟩

private theorem head?_take {d : Char} (h : ts.head? = some d) : (ts ++ us).head? = some d := by
  rw [List.head?_append, h, Option.some_or]

private theorem any_take {p : Char → Bool} (h : ts.head?.any p = true) :
    (ts ++ us).head?.any p = true := by
  cases ts with
  | nil => cases h
  | cons t ts => exact h

private theorem any_take_eq_false {p : Char → Bool} (h : (ts ++ us).head?.any p = false) :
    ts.head?.any p = false := by
  by_contra hsome
  rw [any_take (Bool.not_eq_false _ ▸ hsome)] at h
  cases h

/-- The first character is the same unless the text is empty. -/
private theorem any_take_of_pos {p : Char → Bool} (hpos : 0 < ts.length) :
    ts.head?.any p = (ts ++ us).head?.any p := by
  cases ts with
  | nil => cases hpos
  | cons t ts => rfl

private theorem beginsBased_cons_cons (c d : Char) (cs : List Char) :
    beginsBased (c :: d :: cs) = (c = '\'' && isBaseLetter d) := by
  by_cases htick : c = '\'' <;> simp [beginsBased, htick]

private theorem beginsBased_take (h : beginsBased ts = true) : beginsBased (ts ++ us) = true := by
  unfold beginsBased at h
  split at h
  next c cs => exact h
  next => cases h

private theorem head?_drop_one {cs : List Char} (h : beginsBased cs = true) :
    (cs.drop 1).head?.any isBaseLetter = true := by
  unfold beginsBased at h
  split at h
  next c cs => exact h
  next => cases h

private theorem basedTail_pos {cs : List Char} (h : cs.head?.any isBaseLetter = true) :
    0 < (basedTail cs).1 := by
  cases cs with
  | nil => cases h
  | cons c cs =>
    have hletter : isRadix c = true ∨ isSignFlag c = true := Bool.or_eq_true_iff.mp h
    unfold basedTail
    by_cases hflag : isSignFlag c = true
    · simp only [List.head?_cons, Option.any_some, hflag, if_true]
      split
      · exact Nat.one_pos
      · split <;> dsimp only <;> omega
    · have hradix := hletter.resolve_right hflag
      simp only [List.head?_cons, Option.any_some, hflag, hradix, Bool.false_eq_true, if_false,
        if_true, List.drop_zero]
      omega

private theorem basedTail_take (ts us : List Char) (h : (basedTail (ts ++ us)).1 ≤ ts.length) :
    basedTail ts = basedTail (ts ++ us) := by
  cases ts with
  | nil =>
    -- With nothing taken, no base letter is there.
    have hnone : us.head?.any isBaseLetter ≠ true := fun hletter =>
      absurd (basedTail_pos hletter) (Nat.not_lt.mpr h)
    cases us with
    | nil => rfl
    | cons u us =>
      have hnone := Bool.or_eq_false_iff.mp (Bool.eq_false_iff.mpr hnone)
      simp [basedTail, hnone.1, hnone.2]
  | cons t ts =>
    have hflag : (if (t :: ts).head?.any isSignFlag then 1 else 0) ≤ (t :: ts).length := by
      split <;> simp
    unfold basedTail at h ⊢
    rw [List.cons_append, List.head?_cons] at h ⊢
    rw [List.head?_cons] at hflag ⊢
    generalize (if (some t).any isSignFlag then 1 else 0) = flag at h hflag ⊢
    dsimp only at h ⊢
    rw [← List.cons_append, List.drop_append_of_le_length hflag] at h ⊢
    have hlength := List.length_drop (l := t :: ts) (i := flag)
    cases hdrop : (t :: ts).drop flag with
    | nil =>
      rw [hdrop] at h hlength
      rw [List.length_nil] at hlength
      cases us with
      | nil => rfl
      | cons u us =>
        -- A radix letter behind the text would have been taken.
        rw [List.nil_append] at h ⊢
        dsimp only at h ⊢
        by_cases hradix : isRadix u = true
        · rw [if_pos hradix] at h
          dsimp only at h
          omega
        · rw [if_neg hradix]
    | cons radix ds =>
      rw [hdrop] at h hlength
      rw [List.cons_append] at h ⊢
      dsimp only at h ⊢
      by_cases hradix : isRadix radix = true
      · rw [if_pos hradix] at h
        rw [if_pos hradix, if_pos hradix]
        rw [List.length_cons] at hlength
        dsimp only at h
        obtain ⟨hgap, hdigits⟩ := takeWhile_behindGap (p := isBasedDigit radix) ds us (by omega)
        rw [hdigits, hgap]
      · rw [if_neg hradix, if_neg hradix]

private theorem fractionWidth_take (ts us : List Char) (h : fractionWidth (ts ++ us) ≤ ts.length) :
    fractionWidth ts = fractionWidth (ts ++ us) := by
  cases ts with
  | nil => exact (Nat.le_zero.mp h).symm
  | cons t ts =>
    by_cases hdot : t = '.'
    · subst hdot
      cases ts with
      | nil =>
        cases us with
        | nil => rfl
        | cons u us =>
          by_cases hdigit : u.isDigit = true
          · have htaken : isDecimal u = true := by simp [isDecimal, hdigit]
            rw [List.singleton_append, fractionWidth, if_pos hdigit,
              List.takeWhile_cons_of_pos htaken, List.length_cons, List.length_singleton] at h
            omega
          · rw [List.singleton_append, fractionWidth, if_neg hdigit]
            rfl
      | cons d ds =>
        rw [List.cons_append, List.cons_append, fractionWidth] at h ⊢
        rw [fractionWidth]
        by_cases hdigit : d.isDigit = true
        · rw [if_pos hdigit] at h
          rw [List.length_cons] at h
          have hdigits : (d :: ds).takeWhile isDecimal = (d :: ds ++ us).takeWhile isDecimal :=
            takeWhile_take _ _ (by rw [List.cons_append]; omega)
          rw [if_pos hdigit, if_pos hdigit, hdigits, List.cons_append]
        · rw [if_neg hdigit, if_neg hdigit]
    · simp [fractionWidth, hdot]

private theorem exponentWidth_take (ts us : List Char) (h : exponentWidth (ts ++ us) ≤ ts.length) :
    exponentWidth ts = exponentWidth (ts ++ us) := by
  cases ts with
  | nil => exact (Nat.le_zero.mp h).symm
  | cons mark ts =>
    rw [List.cons_append, exponentWidth] at h ⊢
    rw [exponentWidth]
    by_cases hmark : (mark = 'e' || mark = 'E') = true
    · rw [if_pos hmark] at h
      rw [if_pos hmark, if_pos hmark]
      have hsign : (if ts.head? = some '+' || ts.head? = some '-' then 1 else 0) =
          if (ts ++ us).head? = some '+' || (ts ++ us).head? = some '-' then 1 else 0 := by
        cases ts with
        | nil =>
          by_cases hbehind : (us.head? = some '+' || us.head? = some '-') = true
          · rw [List.nil_append, if_pos hbehind, List.length_singleton] at h
            dsimp only at h
            omega
          · rw [List.nil_append, if_neg hbehind]
            rfl
        | cons t ts => rfl
      have hle : (if ts.head? = some '+' || ts.head? = some '-' then 1 else 0) ≤ ts.length := by
        cases ts with
        | nil => exact Nat.le_refl _
        | cons t ts => split <;> simp
      rw [← hsign] at h ⊢
      generalize (if ts.head? = some '+' || ts.head? = some '-' then 1 else 0) = sign at h hle ⊢
      dsimp only at h ⊢
      rw [List.drop_append_of_le_length hle] at h ⊢
      rw [List.length_cons] at h
      rw [takeWhile_take (ts.drop sign) us (by rw [List.length_drop]; omega)]
    · rw [if_neg hmark, if_neg hmark]

/-- Whether a base follows does not change: what shows it belongs to the literal. -/
private theorem basedBehindGap_take
    (h : beginsBased (ts.drop (ts.takeWhile isGap).length) = true) :
    (ts ++ us).takeWhile isGap = ts.takeWhile isGap ∧
      beginsBased ((ts ++ us).drop ((ts ++ us).takeWhile isGap).length) = true := by
  have hle := (List.takeWhile_sublist isGap (l := ts)).length_le
  have hless : (ts.takeWhile isGap).length ≠ ts.length := by
    intro heq
    rw [heq, List.drop_length] at h
    cases h
  have hgap : (ts ++ us).takeWhile isGap = ts.takeWhile isGap := by
    rw [List.takeWhile_append, if_neg hless]
  refine ⟨hgap, ?_⟩
  rw [hgap, List.drop_append_of_le_length hle]
  exact beginsBased_take h

/-- A base behind a gap, with all that belongs to it. -/
private theorem basedTail_behindGap (ts us : List Char)
    (hbased : beginsBased ((ts ++ us).drop ((ts ++ us).takeWhile isGap).length) = true)
    (h : ((ts ++ us).takeWhile isGap).length + 1 +
      (basedTail ((ts ++ us).drop (((ts ++ us).takeWhile isGap).length + 1))).1 ≤ ts.length) :
    ts.takeWhile isGap = (ts ++ us).takeWhile isGap ∧
      beginsBased (ts.drop (ts.takeWhile isGap).length) = true ∧
      basedTail (ts.drop ((ts.takeWhile isGap).length + 1)) =
        basedTail ((ts ++ us).drop (((ts ++ us).takeWhile isGap).length + 1)) := by
  have hgap : ts.takeWhile isGap = (ts ++ us).takeWhile isGap := takeWhile_take ts us (by omega)
  have hle := (List.takeWhile_sublist isGap (l := ts)).length_le
  have hskip : (ts ++ us).drop ((ts.takeWhile isGap).length + 1) =
      (ts.drop (ts.takeWhile isGap).length ++ us).drop 1 := by
    rw [← List.drop_drop, List.drop_append_of_le_length hle]
  refine ⟨hgap, ?_⟩
  rw [← hgap, List.drop_append_of_le_length hle] at hbased
  rw [← hgap, hskip] at h ⊢
  rw [← List.drop_drop]
  have hrest := List.length_drop (l := ts) (i := (ts.takeWhile isGap).length)
  generalize ts.drop (ts.takeWhile isGap).length = behind at h hrest hbased ⊢
  have htail := basedTail_pos (head?_drop_one hbased)
  -- The tick and the letter behind it both belong to the literal.
  match behind with
  | [] =>
    rw [List.length_nil] at hrest
    omega
  | [tick] =>
    rw [List.length_singleton] at hrest
    omega
  | tick :: letter :: behind =>
    rw [List.length_cons] at hrest
    rw [List.cons_append, List.drop_succ_cons, List.drop_zero] at h ⊢
    rw [List.cons_append, List.cons_append, beginsBased_cons_cons] at hbased
    rw [beginsBased_cons_cons, List.drop_succ_cons, List.drop_zero]
    exact ⟨hbased, basedTail_take (letter :: behind) us (by omega)⟩

private theorem number_take (h : (number (ts ++ us)).width ≤ ts.length) :
    number ts = number (ts ++ us) := by
  have hsize : ts.takeWhile isDecimal = (ts ++ us).takeWhile isDecimal := by
    refine takeWhile_take _ _ (Nat.le_trans ?_ h)
    unfold number
    dsimp only
    split <;> dsimp only <;> omega
  have hle := (List.takeWhile_sublist isDecimal (l := ts)).length_le
  unfold number at h ⊢
  rw [← hsize] at h ⊢
  dsimp only at h ⊢
  rw [List.drop_append_of_le_length hle] at h ⊢
  have hlength := List.length_drop (l := ts) (i := (ts.takeWhile isDecimal).length)
  generalize ts.drop (ts.takeWhile isDecimal).length = after at h hlength ⊢
  by_cases hbased : beginsBased ((after ++ us).drop ((after ++ us).takeWhile isGap).length) = true
  · rw [if_pos hbased] at h
    rw [if_pos hbased]
    dsimp only at h ⊢
    obtain ⟨hgap, hbehind, htail⟩ := basedTail_behindGap after us hbased (by omega)
    rw [if_pos hbehind, htail, hgap]
  · have hplain : ¬ beginsBased (after.drop (after.takeWhile isGap).length) = true :=
      fun hbehind => hbased (basedBehindGap_take hbehind).2
    rw [if_neg hbased] at h
    rw [if_neg hbased, if_neg hplain]
    dsimp only at h
    have hfraction := fractionWidth_take after us (by omega)
    rw [← hfraction] at h ⊢
    rw [List.drop_append_of_le_length (length_fractionWidth after)] at h ⊢
    rw [exponentWidth_take (after.drop (fractionWidth after)) us
      (by rw [List.length_drop]; omega)]

private theorem stringTail_eq_zero {cs : List Char} (h : (stringTail cs).1 = 0) :
    stringTail cs = (0, false) := by
  fun_induction stringTail cs <;> simp_all

private theorem stringTail_take (ts us : List Char) (h : (stringTail (ts ++ us)).1 ≤ ts.length) :
    stringTail ts = stringTail (ts ++ us) := by
  fun_induction stringTail ts with
  | case1 => exact (stringTail_eq_zero (Nat.le_zero.mp h)).symm
  | case2 =>
    -- A character behind the backslash would have been taken.
    cases us with
    | nil => rfl
    | cons u us =>
      have hescape : (stringTail ('\\' :: u :: us)).1 = (stringTail us).1 + 2 := rfl
      rw [List.singleton_append, hescape, List.length_singleton] at h
      omega
  | case3 d ds width closed htail ih =>
    rw [List.cons_append, List.cons_append, stringTail] at h ⊢
    rw [← ih (by simpa using h), htail]
  | case4 ds => rfl
  | case5 d ds hlone hpair hquote hbreak =>
    have hescape := ne_backslash hlone hpair
    simp [stringTail, hescape, hquote, hbreak]
  | case6 d ds hlone hpair hquote hbreak width closed htail ih =>
    have hstands := standsInString_of (ne_backslash hlone hpair) hquote hbreak
    rw [List.cons_append, stringTail_plain hstands] at h ⊢
    rw [← ih (by simpa using h), htail]

/-- Where a string ends before the end of the text, it ends before a newline. -/
private theorem stringTail_behind (hmore : us ≠ []) (h : (stringTail (ts ++ us)).1 = ts.length)
    (rest : List Char) : stringTail (ts ++ '\n' :: rest) = stringTail (ts ++ us) := by
  fun_induction stringTail ts with
  | case1 => exact (stringTail_eq_zero h).symm
  | case2 =>
    obtain ⟨u, us, rfl⟩ := List.exists_cons_of_ne_nil hmore
    have hescape : (stringTail ('\\' :: u :: us)).1 = (stringTail us).1 + 2 := rfl
    rw [List.singleton_append, hescape, List.length_singleton] at h
    omega
  | case3 d ds width closed htail ih =>
    rw [List.cons_append, List.cons_append, stringTail] at h
    rw [List.cons_append, List.cons_append, List.cons_append, List.cons_append, stringTail,
      stringTail, ih (by simpa using h)]
  | case4 ds => rfl
  | case5 d ds hlone hpair hquote hbreak =>
    have hescape := ne_backslash hlone hpair
    simp [stringTail, hescape, hquote, hbreak]
  | case6 d ds hlone hpair hquote hbreak width closed htail ih =>
    have hstands := standsInString_of (ne_backslash hlone hpair) hquote hbreak
    rw [List.cons_append, stringTail_plain hstands] at h
    rw [List.cons_append, List.cons_append, stringTail_plain hstands, stringTail_plain hstands,
      ih (by simpa using h)]

/-- A sign no longer than a text begins it whatever stands behind. -/
private theorem isPrefixOf_take (us sign : List Char) (h : sign.length ≤ ts.length) :
    sign.isPrefixOf ts = sign.isPrefixOf (ts ++ us) := by
  rw [Bool.eq_iff_iff, List.isPrefixOf_iff_prefix, List.isPrefixOf_iff_prefix]
  refine ⟨fun hsign => hsign.trans (List.prefix_append ts us), fun hsign => ?_⟩
  exact List.prefix_of_prefix_length_le hsign (List.prefix_append ts us) h

private theorem isPrefixOf_take_eq_false {sign : List Char}
    (h : sign.isPrefixOf (ts ++ us) = false) : sign.isPrefixOf ts = false := by
  by_contra hsign
  rw [Bool.not_eq_false, List.isPrefixOf_iff_prefix] at hsign
  rw [List.isPrefixOf_iff_prefix.mpr (hsign.trans (List.prefix_append ts us))] at h
  cases h

/-- The symbols of the table, for a text that is one of them. -/
private theorem find?_take {entry : String × Kind}
    (h : (symbols.find? fun (text, _) => text.toList.isPrefixOf (ts ++ us)) = some entry)
    (hwidth : entry.1.length = ts.length) :
    (symbols.find? fun (text, _) => text.toList.isPrefixOf ts) = some entry := by
  rw [List.find?_eq_some_iff_append] at h ⊢
  obtain ⟨hentry, before, after, hsplit, hbefore⟩ := h
  rw [← String.length_toList] at hwidth
  refine ⟨(isPrefixOf_take us _ (Nat.le_of_eq hwidth)).trans hentry, before, after, hsplit, ?_⟩
  intro other hother
  have hnone := hbefore other hother
  rw [Bool.not_eq_true'] at hnone ⊢
  exact isPrefixOf_take_eq_false hnone

/-- A text that begins with a sign of its own length is that sign. -/
private theorem eq_of_isPrefixOf {sign : List Char} (hsign : sign.isPrefixOf (ts ++ us) = true)
    (hlength : sign.length = ts.length) : sign = ts := by
  rw [← isPrefixOf_take us sign (Nat.le_of_eq hlength), List.isPrefixOf_iff_prefix] at hsign
  exact hsign.eq_of_length hlength

private theorem symbol?_take {openBrackets : Nat} {kind : Kind}
    (h : symbol? openBrackets (ts ++ us) = some (kind, ts.length)) :
    symbol? openBrackets ts = some (kind, ts.length) := by
  have hsymbols : ∀ entry ∈ symbols, "(*".toList.isPrefixOf entry.1.toList = false := by decide
  unfold symbol? at h ⊢
  by_cases hopen : ("(*".toList.isPrefixOf (ts ++ us) && !"(*)".toList.isPrefixOf (ts ++ us)) = true
  · rw [if_pos hopen] at h
    obtain ⟨rfl, hwidth⟩ := Prod.mk.inj (Option.some.inj h)
    rw [Bool.and_eq_true] at hopen
    obtain rfl := eq_of_isPrefixOf hopen.1 hwidth
    rfl
  rw [if_neg hopen] at h
  by_cases hclose : ("*)".toList.isPrefixOf (ts ++ us) && openBrackets > 0) = true
  · rw [if_pos hclose] at h
    obtain ⟨rfl, hwidth⟩ := Prod.mk.inj (Option.some.inj h)
    rw [Bool.and_eq_true] at hclose
    obtain rfl := eq_of_isPrefixOf hclose.1 hwidth
    rw [if_neg (by decide), if_pos (Bool.and_eq_true_iff.mpr ⟨by decide, hclose.2⟩), ← hwidth]
  rw [if_neg hclose] at h
  obtain ⟨entry, hfound, heq⟩ := Option.map_eq_some_iff.mp h
  obtain ⟨hkind, hwidth⟩ := Prod.mk.inj heq
  have hlength : entry.1.toList.length = ts.length := String.length_toList.trans hwidth
  have hbegins : entry.1.toList.isPrefixOf (ts ++ us) = true := by
    simpa using List.find?_some hfound
  have htext := eq_of_isPrefixOf hbegins hlength
  have hnoOpen : "(*".toList.isPrefixOf ts = false :=
    htext ▸ hsymbols entry (List.mem_of_find?_eq_some hfound)
  have hnoClose : ¬ ("*)".toList.isPrefixOf ts && openBrackets > 0) = true := by
    intro hclosed
    rw [Bool.and_eq_true, List.isPrefixOf_iff_prefix] at hclosed
    refine hclose (Bool.and_eq_true_iff.mpr ⟨?_, hclosed.2⟩)
    exact List.isPrefixOf_iff_prefix.mpr (hclosed.1.trans (List.prefix_append ts us))
  rw [hnoOpen, Bool.false_and, if_neg Bool.false_ne_true, if_neg hnoClose,
    find?_take hfound hwidth]
  exact congrArg some heq

private theorem symbol?_take_none {openBrackets : Nat} {c : Char}
    (h : symbol? openBrackets (c :: us) = none) : symbol? openBrackets [c] = none := by
  have hlong (a b : Char) : [a, b].isPrefixOf [c] = false := by simp [List.isPrefixOf]
  unfold symbol? at h ⊢
  split at h
  next => cases h
  next =>
    split at h
    next => cases h
    next =>
      have hnone := List.find?_eq_none.mp (Option.map_eq_none_iff.mp h)
      have hfound : (symbols.find? fun (text, _) => text.toList.isPrefixOf [c]) = none := by
        refine List.find?_eq_none.mpr fun entry hentry => ?_
        have hbehind : entry.1.toList.isPrefixOf ([c] ++ us) = false :=
          Bool.eq_false_iff.mpr (hnone entry hentry)
        exact Bool.eq_false_iff.mp (isPrefixOf_take_eq_false hbehind)
      rw [hfound, show "(*".toList = ['(', '*'] from rfl, show "*)".toList = ['*', ')'] from rfl,
        hlong, hlong]
      rfl

end Truncation

section Tokens

variable {openBrackets : Nat} {c : Char} {ts us : List Char}

private theorem escape_take
    (hwidth : (ofCons openBrackets '\\' (ts ++ us)).width = ts.length + 1) :
    ofCons openBrackets '\\' ts = ofCons openBrackets '\\' (ts ++ us) := by
  rw [ofCons_backslash] at hwidth
  rw [ofCons_backslash, ofCons_backslash, takeWhile_take ts us]
  split at hwidth <;> dsimp only at hwidth <;> omega

private theorem dollar_take
    (hwidth : (ofCons openBrackets '$' (ts ++ us)).width = ts.length + 1) :
    ofCons openBrackets '$' ts = ofCons openBrackets '$' (ts ++ us) := by
  have hpiece (cs : List Char) : ofCons openBrackets '$' cs =
      if cs.head?.any isNameStart then
        { kind := some .systemIdentifier, width := 1 + (cs.takeWhile isNameChar).length }
      else { kind := some .error, width := 1, problems := [.loneDollar] } := rfl
  rw [hpiece] at hwidth
  rw [hpiece, hpiece]
  by_cases hname : (ts ++ us).head?.any isNameStart = true
  · rw [if_pos hname] at hwidth
    dsimp only at hwidth
    have htake := takeWhile_take (p := isNameChar) ts us (by omega)
    have hpos : 0 < ts.length := by
      obtain ⟨d, ds, hds⟩ : ∃ d ds, ts ++ us = d :: ds := by
        cases hds : ts ++ us with
        | nil => rw [hds] at hname; cases hname
        | cons d ds => exact ⟨d, ds, rfl⟩
      rw [hds] at hname hwidth
      rw [List.takeWhile_cons_of_pos (isNameChar_of_isNameStart hname), List.length_cons] at hwidth
      omega
    rw [any_take_of_pos hpos, htake]
  · rw [if_neg hname, if_neg]
    exact Bool.eq_false_iff.mp (any_take_eq_false (Bool.eq_false_iff.mpr hname))

/-- The piece that a symbol is, or the character that begins none. -/
def ofSymbol (c : Char) : Option (Kind × Nat) → Piece
  | some (kind, width) => { kind := some kind, width := width }
  | none => { kind := some .error, width := 1, problems := [.stray c] }

private theorem ofSymbol_take
    (hwidth : (ofSymbol c (symbol? openBrackets (c :: (ts ++ us)))).width = ts.length + 1) :
    ofSymbol c (symbol? openBrackets (c :: ts)) =
      ofSymbol c (symbol? openBrackets (c :: (ts ++ us))) := by
  cases hsymbol : symbol? openBrackets (c :: (ts ++ us)) with
  | none =>
    rw [hsymbol] at hwidth
    obtain rfl : ts = [] := List.length_eq_zero_iff.mp (Nat.succ.inj hwidth).symm
    rw [symbol?_take_none hsymbol]
  | some entry =>
    obtain ⟨kind, width⟩ := entry
    rw [hsymbol] at hwidth
    obtain rfl : width = (c :: ts).length := hwidth
    have htake : symbol? openBrackets (c :: ts) = some (kind, (c :: ts).length) :=
      symbol?_take hsymbol
    rw [htake]

private theorem tick_take
    (hwidth : (ofCons openBrackets '\'' (ts ++ us)).width = ts.length + 1) :
    ofCons openBrackets '\'' ts = ofCons openBrackets '\'' (ts ++ us) := by
  have hpiece (cs : List Char) : ofCons openBrackets '\'' cs =
      if cs.head?.any isBaseLetter then
        { kind := some .sizedLiteral
          width := 1 + (basedTail cs).1
          problems := if (basedTail cs).2 then [] else [.missingBase] }
      else if cs.head?.any isFill then { kind := some .fillLiteral, width := 2 }
      else ofSymbol '\'' (symbol? openBrackets ('\'' :: cs)) := rfl
  rw [hpiece] at hwidth
  rw [hpiece, hpiece]
  by_cases hbased : (ts ++ us).head?.any isBaseLetter = true
  · rw [if_pos hbased] at hwidth
    dsimp only at hwidth
    have hpos := basedTail_pos hbased
    have htail := basedTail_take ts us (by omega)
    have hsame : ts.head?.any isBaseLetter = (ts ++ us).head?.any isBaseLetter :=
      any_take_of_pos (by omega)
    rw [hsame, if_pos hbased, if_pos hbased, htail]
  rw [if_neg hbased] at hwidth
  have hnoBase := any_take_eq_false (Bool.eq_false_iff.mpr hbased)
  rw [hnoBase, if_neg Bool.false_ne_true, if_neg hbased]
  by_cases hfill : (ts ++ us).head?.any isFill = true
  · rw [if_pos hfill] at hwidth
    dsimp only at hwidth
    have hsame : ts.head?.any isFill = (ts ++ us).head?.any isFill :=
      any_take_of_pos (by omega)
    rw [hsame, if_pos hfill, if_pos hfill]
  rw [if_neg hfill] at hwidth
  have hnoFill := any_take_eq_false (Bool.eq_false_iff.mpr hfill)
  rw [hnoFill, if_neg Bool.false_ne_true, if_neg hfill, ofSymbol_take hwidth]

private theorem width_string (openBrackets : Nat) (cs : List Char) :
    (ofCons openBrackets '"' cs).width = 1 + (stringTail cs).1 := by
  rw [ofCons_quotes]
  split <;> rfl

private theorem quote_take
    (hwidth : (ofCons openBrackets '"' (ts ++ us)).width = ts.length + 1) :
    ofCons openBrackets '"' ts = ofCons openBrackets '"' (ts ++ us) := by
  rw [width_string] at hwidth
  rw [ofCons_quotes, ofCons_quotes, stringTail_take ts us (by omega)]

/-- A mark begins a comment or a symbol. -/
private theorem mark_take (hmark : isMark c = true)
    (hkind : (ofCons openBrackets c (ts ++ us)).kind ≠ none)
    (hwidth : (ofCons openBrackets c (ts ++ us)).width = ts.length + 1) :
    ofCons openBrackets c ts = ofCons openBrackets c (ts ++ us) := by
  have hpiece (cs : List Char) (hline : ¬ (c = '/' && cs.head? = some '/') = true)
      (hblock : ¬ (c = '/' && cs.head? = some '*') = true) :
      ofCons openBrackets c cs = ofSymbol c (symbol? openBrackets (c :: cs)) := by
    simp only [isMark, Bool.not_eq_true', Bool.or_eq_false_iff, decide_eq_false_iff_not] at hmark
    obtain ⟨⟨⟨⟨⟨⟨⟨hspace, hdirective⟩, hname⟩, hescape⟩, hdollar⟩, hdigit⟩, htick⟩, hquote⟩ := hmark
    simp only [ofCons, hspace, hline, hblock, hdirective, hname, hescape, hdollar, hdigit, htick,
      hquote, decide_false, Bool.false_and, Bool.false_eq_true, if_false]
    rfl
  have hhead {d : Char} (h : ¬ (c = '/' && (ts ++ us).head? = some d) = true) :
      ¬ (c = '/' && ts.head? = some d) = true := by
    intro hslash
    rw [Bool.and_eq_true, decide_eq_true_eq, decide_eq_true_eq] at hslash
    exact h (by simp [hslash.1, head?_take hslash.2])
  have hline : ¬ (c = '/' && (ts ++ us).head? = some '/') = true := by
    intro hline
    rw [Bool.and_eq_true, decide_eq_true_eq, decide_eq_true_eq] at hline
    obtain ⟨rfl, hline⟩ := hline
    exact hkind (by simp [ofCons, isSpace, hline])
  have hblock : ¬ (c = '/' && (ts ++ us).head? = some '*') = true := by
    intro hblock
    rw [Bool.and_eq_true, decide_eq_true_eq, decide_eq_true_eq] at hblock
    obtain ⟨rfl, hblock⟩ := hblock
    exact hkind (by simp [ofCons, isSpace, hblock])
  rw [hpiece _ hline hblock] at hwidth
  rw [hpiece _ hline hblock, hpiece _ (hhead hline) (hhead hblock), ofSymbol_take hwidth]

/-- A token is found by its own characters. -/
theorem ofCons_take (hkind : (ofCons openBrackets c (ts ++ us)).kind ≠ none)
    (hwidth : (ofCons openBrackets c (ts ++ us)).width = ts.length + 1) :
    ofCons openBrackets c ts = ofCons openBrackets c (ts ++ us) := by
  by_cases hspace : isSpace c = true
  · exact absurd (congrArg Piece.kind (if_pos hspace)) hkind
  by_cases hdirective : c = '\x60'
  · subst hdirective
    exact absurd rfl hkind
  by_cases hname : isNameStart c = true
  · rw [ofCons_name hname] at hwidth
    rw [ofCons_name hname, ofCons_name hname,
      takeWhile_take (p := isNameChar) (c :: ts) us (Nat.le_of_eq hwidth)]
    rfl
  by_cases hescape : c = '\\'
  · subst hescape
    exact escape_take hwidth
  by_cases hdollar : c = '$'
  · subst hdollar
    exact dollar_take hwidth
  by_cases hdigit : c.isDigit = true
  · rw [ofCons_digit hdigit] at hwidth
    rw [ofCons_digit hdigit, ofCons_digit hdigit]
    exact number_take (Nat.le_of_eq hwidth)
  by_cases htick : c = '\''
  · subst htick
    exact tick_take hwidth
  by_cases hquote : c = '"'
  · subst hquote
    exact quote_take hwidth
  refine mark_take ?_ hkind hwidth
  simp [isMark, hspace, hdirective, hname, hescape, hdollar, hdigit, htick, hquote]

/-- A token that more of the text stands behind ends before a newline. -/
theorem ofCons_behind (hkind : (ofCons openBrackets c (ts ++ us)).kind ≠ none)
    (hwidth : (ofCons openBrackets c (ts ++ us)).width = ts.length + 1) (hmore : us ≠ [])
    (rest : List Char) :
    ofCons openBrackets c (ts ++ '\n' :: rest) = ofCons openBrackets c (ts ++ us) := by
  have htake := ofCons_take hkind hwidth
  rw [← htake] at hkind ⊢
  refine ofCons_newline_of ?_ ?_ ?_
  · by_contra hspace
    rw [Bool.not_eq_false] at hspace
    exact hkind (congrArg Piece.kind (if_pos hspace))
  · rintro rfl
    rw [width_string] at hwidth
    rw [stringTail_behind hmore (by omega), stringTail_take ts us (by omega)]
  · rintro ds rfl rfl
    exact absurd rfl hkind

end Tokens

end Piece

namespace Token

/-- What a token is, apart from its place. -/
def spelling (t : Token) : Kind × String := (t.kind, t.text)

/-- The texts of some tokens, each on a line of its own. -/
def lines (ts : List Token) : String := "\n".intercalate (ts.map Token.text)

/-- The kind of a text that is one token behind some open attribute brackets. -/
def kindOf? (openBrackets : Nat) (text : String) : Option Kind :=
  match text.toList with
  | [] => none
  | c :: cs =>
    let piece := Piece.ofCons openBrackets c cs
    if piece.width = cs.length + 1 then piece.kind else none

/-- Behind some open attribute brackets and before `rest`, the text of a token is cut off as just
this token. -/
def CutBefore (openBrackets : Nat) (t : Token) (rest : List Char) : Prop :=
  ∃ c cs, t.text.toList = c :: cs ∧
    (Piece.ofCons openBrackets c (cs ++ rest)).kind = some t.kind ∧
    (Piece.ofCons openBrackets c (cs ++ rest)).width = cs.length + 1

/-- Tokens whose texts are cut off before the end of a text and, but for the last, before a line
break. -/
inductive LineByLine : Nat → List Token → Prop
  | nil {openBrackets : Nat} : LineByLine openBrackets []
  | cons {openBrackets : Nat} {t : Token} {ts : List Token} : CutBefore openBrackets t [] →
      (ts ≠ [] → ∀ rest, CutBefore openBrackets t ('\n' :: rest)) →
      LineByLine (Lexeme.bracketsAfter openBrackets t.kind) ts → LineByLine openBrackets (t :: ts)

variable {offset openBrackets : Nat} {t : Token} {ts : List Token} {rest : List Char}

theorem CutBefore.kindOf? (h : CutBefore openBrackets t []) :
    kindOf? openBrackets t.text = some t.kind := by
  obtain ⟨c, cs, htext, hkind, hwidth⟩ := h
  rw [List.append_nil] at hkind hwidth
  rw [Token.kindOf?, htext]
  dsimp only
  rw [if_pos hwidth, hkind]

/-- The token is found, and then what stands behind it. -/
theorem CutBefore.scan (h : CutBefore openBrackets t rest) (offset : Nat) :
    ∃ u, u.spelling = t.spelling ∧
      (Lexeme.scan 0 offset openBrackets (t.text.toList ++ rest)).filterMap ofLexeme? =
        u :: (Lexeme.scan 0 u.stop (Lexeme.bracketsAfter openBrackets t.kind)
          rest).filterMap ofLexeme? := by
  obtain ⟨c, cs, htext, hkind, hwidth⟩ := h
  have htake : (c :: (cs ++ rest)).take (c :: cs).length = c :: cs := List.take_left
  have hdrop : (c :: (cs ++ rest)).drop (c :: cs).length = rest := List.drop_left
  rw [List.length_cons] at htake hdrop
  refine ⟨⟨t.kind, String.ofList (c :: cs), offset, offset + Text.byteLength (c :: cs)⟩, ?_, ?_⟩
  · rw [spelling, spelling, ← htext, String.ofList_toList]
  · rw [htext, List.cons_append, Lexeme.scan_step, Lexeme.first, hkind, hwidth, htake, hdrop]
    rfl

/-- A text is cut into tokens whose texts are cut off in the same way. -/
theorem lineByLine_scan (offset openBrackets : Nat) (cs : List Char) :
    LineByLine openBrackets ((Lexeme.scan 0 offset openBrackets cs).filterMap ofLexeme?) := by
  induction hlength : cs.length using Nat.strong_induction_on generalizing cs offset openBrackets
  next n ih =>
  subst hlength
  obtain ⟨g, r, rfl, -, htokens, hr⟩ := Lexeme.exists_gap offset openBrackets cs
  rw [htokens]
  rcases hr with rfl | ⟨c, rest, kind, rfl, hkind⟩
  · exact .nil
  have hpos := Piece.width_pos openBrackets c rest
  have hle := Piece.width_le openBrackets c rest
  obtain ⟨width, hwidth⟩ := Nat.exists_eq_add_one.mpr hpos
  rw [hwidth, List.length_cons, Nat.succ_le_succ_iff] at hle
  obtain ⟨ts, us, rfl, rfl⟩ : ∃ ts us, rest = ts ++ us ∧ width = ts.length :=
    ⟨rest.take width, rest.drop width, (List.take_append_drop width rest).symm,
      by rw [List.length_take]; omega⟩
  have hsome : (Piece.ofCons openBrackets c (ts ++ us)).kind ≠ none := by
    rw [hkind]
    nofun
  have hdrop : (c :: (ts ++ us)).drop (ts.length + 1) = us := List.drop_left
  have htake : (c :: (ts ++ us)).take (ts.length + 1) = c :: ts := by simp
  have hlater := ih us.length (by simp; omega)
    (offset + Text.byteLength g + Text.byteLength (c :: ts))
    (Lexeme.bracketsAfter openBrackets kind) us rfl
  rw [Lexeme.scan_step, Lexeme.first, hkind, hwidth, hdrop, htake, List.filterMap_cons]
  have hcut {rest : List Char} (hsame : Piece.ofCons openBrackets c (ts ++ rest) =
      Piece.ofCons openBrackets c (ts ++ us)) (start stop : Nat) :
      CutBefore openBrackets ⟨kind, String.ofList (c :: ts), start, stop⟩ rest :=
    ⟨c, ts, String.toList_ofList, hsame ▸ hkind, hsame ▸ hwidth⟩
  refine .cons (hcut ?_ _ _) (fun hmore rest => hcut ?_ _ _) hlater
  · rw [List.append_nil]
    exact Piece.ofCons_take hsome hwidth
  · refine Piece.ofCons_behind hsome hwidth ?_ rest
    rintro rfl
    exact hmore rfl

theorem toList_lines_single (t : Token) : (lines [t]).toList = t.text.toList := by
  simp [lines]

theorem toList_lines_cons (t u : Token) (ts : List Token) :
    (lines (t :: u :: ts)).toList = t.text.toList ++ '\n' :: (lines (u :: ts)).toList := by
  simp [lines, String.toList_intercalate]

private theorem tokens_newline (offset openBrackets : Nat) (rest : List Char) :
    (Lexeme.scan 0 offset openBrackets ('\n' :: rest)).filterMap ofLexeme? =
      (Lexeme.scan 0 (offset + Text.byteLength ['\n']) openBrackets rest).filterMap ofLexeme? := by
  have hblank : Lexeme.Overlooks fun l => (ofLexeme? l).toList := by
    intro l hkind _
    simp [ofLexeme?, hkind]
  have hspace : ∀ c ∈ ['\n'], Piece.isSpace c = true := List.forall_mem_singleton.mpr rfl
  rw [List.filterMap_eq_flatMap_toList, List.filterMap_eq_flatMap_toList]
  exact Lexeme.flatMap_spaces hblank hspace offset openBrackets rest

/-- On lines of their own, such tokens are found again, one by one. -/
theorem LineByLine.scan_lines (h : LineByLine openBrackets ts) (offset : Nat) :
    ((Lexeme.scan 0 offset openBrackets (lines ts).toList).filterMap ofLexeme?).map spelling =
      ts.map spelling := by
  induction h generalizing offset with
  | nil => rfl
  | @cons openBrackets t ts halone hclosed _ ih =>
    cases ts with
    | nil =>
      obtain ⟨u, hu, hscan⟩ := halone.scan offset
      rw [List.append_nil] at hscan
      rw [toList_lines_single, hscan, List.map_cons, hu]
      rfl
    | cons v vs =>
      have halone := hclosed (List.cons_ne_nil v vs) (lines (v :: vs)).toList
      obtain ⟨u, hu, hscan⟩ := halone.scan offset
      rw [toList_lines_cons, hscan, List.map_cons, hu, tokens_newline, ih]
      rfl

/-- The kind of each is found from its text and the brackets open before it. -/
theorem LineByLine.kindOf? {before after : List Token} (h : LineByLine openBrackets ts)
    (hts : ts = before ++ t :: after) :
    Token.kindOf? (before.foldl (fun n u => Lexeme.bracketsAfter n u.kind) openBrackets) t.text =
      some t.kind := by
  induction h generalizing before with
  | nil => cases before <;> cases hts
  | cons halone _ _ ih =>
    cases before with
    | nil =>
      cases hts
      exact halone.kindOf?
    | cons b before =>
      obtain ⟨rfl, hlater⟩ := List.cons_eq_cons.mp hts
      exact ih hlater

end Token

/-- Lexing the tokens of a text once more, each on a line of its own, gives the same tokens; what a
token is depends on nothing but its own text and the attribute brackets open before it. -/
theorem lex_lines (file : Nat) (content : String) :
    (lex file (Token.lines (lex file content).1.dropLast)).1.map Token.spelling =
        (lex file content).1.dropLast.map Token.spelling ++ [(.eof, "")] ∧
      ∀ before t after, (lex file content).1.dropLast = before ++ t :: after →
        Token.kindOf? (openAttributes before) t.text = some t.kind := by
  have hlines := Token.lineByLine_scan 0 0 content.toList
  rw [lex_tokens, lex_tokens, List.dropLast_concat, List.map_append]
  refine ⟨?_, fun before t after => hlines.kindOf?⟩
  exact congrArg (· ++ [(Kind.eof, "")]) (hlines.scan_lines 0)

end Netlist
