import Netlist.Proofs.Token.Shapes

/-!
Literals before a delimiter. A number goes on as long as digits, a base, a fraction or an exponent
follow it, so it ends before a delimiter; a string ends with its quote.
-/
namespace Netlist.Piece

/-- Signs that neither a name nor a number goes on with. -/
def delimiters : List Char := [')', ']', '\x7d', '[', '\x7b', ',', ':', '+', '-']

/-- The end, a delimiter, or a blank that no base stands behind. -/
inductive Delimits : List Char → Prop
  | nil : Delimits []
  | mark {c : Char} {cs : List Char} : c ∈ delimiters → Delimits (c :: cs)
  | blank {c : Char} {cs : List Char} : isGap c = false → c ≠ '\'' → Delimits (' ' :: c :: cs)

/-- What names, literals and the brackets around expressions begin with. -/
def startsText (c : Char) : Bool :=
  isNameStart c || c.isDigit || ['$', '\'', '"', '(', '\x7b'].contains c

variable {c d radix : Char} {cs ds size fraction exponent digits after rest : List Char}

theorem Ends.of_start {p : Char → Bool} (h : cs.head?.any startsText = true)
    (hp : ∀ c, startsText c = true → p c = false) : Ends p (cs ++ rest) := by
  cases cs with
  | nil => cases h
  | cons c cs =>
    intro r hr
    cases hr
    exact hp c h

theorem isInner_of_startsText (h : startsText c = true) : isInner c = false := by
  have hopenings : ∀ opening ∈ openings, opening.toList.tail.any startsText = false := by decide
  by_contra hinner
  rw [Bool.not_eq_false] at hinner
  obtain ⟨opening, hopening, hc⟩ := List.any_eq_true.mp hinner
  exact List.any_eq_false.mp (hopenings opening hopening) c (List.contains_iff_mem.mp hc) h

theorem isSpace_of_startsText (h : startsText c = true) : isSpace c = false :=
  isSpace_eq_false h fun d hd => by
    rcases eq_of_isSpace hd with rfl | rfl | rfl | rfl | rfl <;> decide

theorem beginsBased_of_ends (h : Ends (· = '\'') cs) : beginsBased cs = false := by
  unfold beginsBased
  split
  next => cases h '\'' rfl
  next => rfl

namespace Delimits

theorem ends {p : Char → Bool} (h : Delimits rest) (hp : (' ' :: delimiters).any p = false) :
    Ends p rest := by
  intro r hr
  rw [List.any_eq_false] at hp
  refine Bool.eq_false_iff.mpr (hp r ?_)
  cases h with
  | nil => cases hr
  | mark hc =>
    cases hr
    exact List.mem_cons_of_mem _ hc
  | blank _ _ =>
    cases hr
    exact List.mem_cons_self

theorem beginsBased_drop (h : Delimits rest) :
    beginsBased (rest.drop (rest.takeWhile isGap).length) = false := by
  cases h with
  | nil => rfl
  | @mark c cs hc =>
    have hgaps : delimiters.any isGap = false := by decide
    have hgap : isGap c = false := Bool.eq_false_iff.mpr (List.any_eq_false.mp hgaps c hc)
    rw [List.takeWhile_cons_of_neg (by simp [hgap])]
    exact beginsBased_of_ends ((mark hc).ends (by decide))
  | @blank c cs hgap hc =>
    rw [List.takeWhile_cons_of_pos (by decide), List.takeWhile_cons_of_neg (by simp [hgap])]
    exact beginsBased_of_ends fun r hr => by
      cases hr
      exact decide_eq_false hc

theorem fractionWidth_eq (h : Delimits rest) : fractionWidth rest = 0 := by
  have hdot : Ends (· = '.') rest := h.ends (by decide)
  unfold fractionWidth
  split
  next => cases hdot '.' rfl
  next => rfl

theorem exponentWidth_eq (h : Delimits rest) : exponentWidth rest = 0 := by
  have hmark : Ends (fun c => c = 'e' || c = 'E') rest := h.ends (by decide)
  cases rest with
  | nil => rfl
  | cons c cs =>
    rw [exponentWidth, if_neg]
    simpa using hmark c rfl

end Delimits

/-- A number without a base. -/
theorem number_append (hsize : ∀ c ∈ size, isDecimal c = true) (hafter : Ends isDecimal after)
    (hbase : beginsBased (after.drop (after.takeWhile isGap).length) = false) :
    number (size ++ after) =
      { kind := some (if fractionWidth after + exponentWidth (after.drop (fractionWidth after)) = 0
          then .intLiteral else .realLiteral)
        width := size.length + fractionWidth after +
          exponentWidth (after.drop (fractionWidth after)) } := by
  have htake : (size ++ after).takeWhile isDecimal = size := hafter.takeWhile_append hsize
  simp only [number, htake, List.drop_left, hbase, Bool.false_eq_true, if_false]

theorem isDecimal_of_isDigit (h : c.isDigit = true) : isDecimal c = true := by
  simp [isDecimal, h]

theorem single_int (hd : d.isDigit = true) (hds : ∀ c ∈ ds, isDecimal c = true)
    (hrest : Delimits rest) : Single (some .intLiteral) d ds rest := by
  have hsize : ∀ c ∈ d :: ds, isDecimal c = true :=
    List.forall_mem_cons.mpr ⟨isDecimal_of_isDigit hd, hds⟩
  have hnumber := number_append hsize (hrest.ends (by decide)) hrest.beginsBased_drop
  rw [hrest.fractionWidth_eq, List.drop_zero, hrest.exponentWidth_eq] at hnumber
  rw [Single, ofCons_digit hd]
  exact hnumber

/-- An exponent whose last character is a digit is read to its end. -/
theorem exponentWidth_append (h : IsExponent exponent)
    (hlast : exponent.getLast?.all Char.isDigit = true) (hrest : Delimits rest) :
    exponentWidth (exponent ++ rest) = exponent.length := by
  cases h with
  | none => exact hrest.exponentWidth_eq
  | @some mark sign ds hmark hsign hds =>
    cases ds with
    | nil =>
      rcases hmark with rfl | rfl <;> rcases hsign with rfl | rfl | rfl <;> cases hlast
    | cons d ds =>
      have hdigits : (d :: (ds ++ rest)).takeWhile isDecimal = d :: ds :=
        Ends.takeWhile_append (hrest.ends (by decide)) hds
      have hmark : (mark = 'e' || mark = 'E') = true := by simpa using hmark
      rw [List.cons_append, exponentWidth, if_pos hmark]
      rcases hsign with rfl | rfl | rfl
      · have hsign : (d = '+' || d = '-') = false := by
          rw [Bool.or_eq_false_iff, decide_eq_false_iff_not, decide_eq_false_iff_not]
          have hd : isDecimal d = true := hds d List.mem_cons_self
          constructor <;> rintro rfl <;> cases hd
        simp only [List.nil_append, List.cons_append, List.head?_cons, Option.some.injEq, hsign,
          Bool.false_eq_true, if_false, List.drop_zero, hdigits, List.length_cons]
        omega
      · simp [hdigits]
        omega
      · simp [hdigits]
        omega

private theorem fractionWidth_exponent (h : IsExponent exponent) (hrest : Delimits rest) :
    fractionWidth (exponent ++ rest) = 0 := by
  cases h with
  | none => exact hrest.fractionWidth_eq
  | some hmark hsign hds => rcases hmark with rfl | rfl <;> rfl

private theorem ends_exponent {p : Char → Bool} (h : IsExponent exponent) (hrest : Delimits rest)
    (hp : ('e' :: 'E' :: ' ' :: delimiters).any p = false) : Ends p (exponent ++ rest) := by
  rw [List.any_cons, List.any_cons, Bool.or_eq_false_iff, Bool.or_eq_false_iff] at hp
  cases h with
  | none => exact hrest.ends hp.2.2
  | some hmark hsign hds =>
    intro r hr
    cases hr
    rcases hmark with rfl | rfl
    · exact hp.1
    · exact hp.2.1

theorem fractionWidth_append (h : IsFraction fraction) (hexponent : IsExponent exponent)
    (hrest : Delimits rest) :
    fractionWidth (fraction ++ (exponent ++ rest)) = fraction.length := by
  cases h with
  | none =>
    rw [List.nil_append]
    exact fractionWidth_exponent hexponent hrest
  | @some d ds hd hds =>
    have hdigits : (d :: (ds ++ (exponent ++ rest))).takeWhile isDecimal = d :: ds :=
      Ends.takeWhile_append (ends_exponent hexponent hrest (by decide))
        (List.forall_mem_cons.mpr ⟨isDecimal_of_isDigit hd, hds⟩)
    rw [List.cons_append, List.cons_append, fractionWidth, if_pos hd, hdigits]
    simp only [List.length_cons]
    omega

/-- What follows the first digits of a real. -/
private theorem ends_fraction {p : Char → Bool} (h : IsFraction fraction)
    (hexponent : IsExponent exponent) (hne : fraction ++ exponent ≠ [])
    (hp : ['.', 'e', 'E'].any p = false) : Ends p (fraction ++ (exponent ++ rest)) := by
  intro r hr
  rw [List.any_eq_false] at hp
  refine Bool.eq_false_iff.mpr (hp r ?_)
  cases h with
  | none =>
    cases hexponent with
    | none => exact absurd rfl hne
    | some hmark hsign hds =>
      cases hr
      rcases hmark with rfl | rfl <;> decide
  | some hd hds =>
    cases hr
    decide

/-- A real whose last character is a digit. -/
theorem single_real (h : RealText (c :: cs)) (hlast : (c :: cs).getLast?.all Char.isDigit = true)
    (hrest : Delimits rest) : Single (some .realLiteral) c cs rest := by
  generalize htext : c :: cs = text at h hlast
  cases h with
  | mk hd hds hfraction hexponent hne =>
    rename_i ds fraction exponent
    cases htext
    have hsize : ∀ d ∈ c :: ds, isDecimal d = true :=
      List.forall_mem_cons.mpr ⟨isDecimal_of_isDigit hd, hds⟩
    have hends {p : Char → Bool} (hp : ['.', 'e', 'E'].any p = false) :
        Ends p (fraction ++ (exponent ++ rest)) := ends_fraction hfraction hexponent hne hp
    have hgap : Ends isGap (fraction ++ (exponent ++ rest)) := hends (by decide)
    have hbase : beginsBased (fraction ++ (exponent ++ rest)) = false :=
      beginsBased_of_ends (hends (by decide))
    have hdigit : exponent.getLast?.all Char.isDigit = true := by
      rw [← List.cons_append, List.getLast?_append, List.getLast?_append] at hlast
      cases hend : exponent.getLast? with
      | none => rfl
      | some e => rwa [hend] at hlast
    have hwidth : fraction.length + exponent.length ≠ 0 := by
      rwa [← List.length_append, Ne, List.length_eq_zero_iff]
    have hnumber := number_append hsize (hends (by decide)) (by rwa [hgap.takeWhile])
    rw [fractionWidth_append hfraction hexponent hrest, List.drop_left,
      exponentWidth_append hexponent hdigit hrest, if_neg hwidth] at hnumber
    rw [Single, ofCons_digit hd, List.append_assoc, List.append_assoc, ← List.cons_append, hnumber]
    refine congrArg (fun width => Piece.mk (some .realLiteral) width []) ?_
    simp only [List.length_append, List.length_cons]
    omega

section Based

theorem isGap_of_isBasedDigit (h : isBasedDigit radix d = true) : isGap d = false := by
  by_contra hgap
  simp only [isGap, Bool.not_eq_false, Bool.or_eq_true, decide_eq_true_eq] at hgap
  unfold isBasedDigit at h
  rcases hgap with rfl | rfl <;> split at h <;> revert h <;> decide

theorem Delimits.ends_basedDigit (h : Delimits rest) : Ends (isBasedDigit radix) rest := by
  have hclass : (' ' :: delimiters).any (fun c => c = '_' || c.toLower = 'x' || c.toLower = 'z' ||
      c = '?' || c = '0' || c = '1' || ('0' ≤ c && c ≤ '7') || c.isDigit || isHexDigit c) = false := by
    decide
  refine h.ends (List.any_eq_false.mpr fun c hc => ?_)
  have hc := Bool.eq_false_iff.mpr (List.any_eq_false.mp hclass c hc)
  simp only [Bool.or_eq_false_iff] at hc
  unfold isBasedDigit
  split <;> simp [hc]

/-- A base with its digits, before a delimiter. -/
theorem basedTail_append (flag : List Char) (hflag : flag = [] ∨ flag = ['s'])
    (hradix : isRadix radix = true) (hsign : isSignFlag radix = false) (hne : digits ≠ [])
    (hdigits : ∀ d ∈ digits, isBasedDigit radix d = true) (hrest : Delimits rest) :
    basedTail (flag ++ radix :: (digits ++ rest)) = ((flag ++ radix :: digits).length, true) := by
  have hgap : (digits ++ rest).takeWhile isGap = [] := by
    cases digits with
    | nil => exact absurd rfl hne
    | cons d ds =>
      refine List.takeWhile_cons_of_neg ?_
      simp [isGap_of_isBasedDigit (hdigits d List.mem_cons_self)]
  have htake : (digits ++ rest).takeWhile (isBasedDigit radix) = digits :=
    hrest.ends_basedDigit.takeWhile_append hdigits
  rcases hflag with rfl | rfl
  · simp [basedTail, hsign, hradix, hgap, htake]
    omega
  · simp [basedTail, isSignFlag, hradix, hgap, htake]
    omega

/-- A number with a base and no size. -/
theorem single_based (flag : List Char) (hflag : flag = [] ∨ flag = ['s'])
    (hradix : isRadix radix = true) (hsign : isSignFlag radix = false) (hne : digits ≠ [])
    (hdigits : ∀ d ∈ digits, isBasedDigit radix d = true) (hrest : Delimits rest) :
    Single (some .sizedLiteral) '\'' (flag ++ radix :: digits) rest := by
  have htail := basedTail_append flag hflag hradix hsign hne hdigits hrest
  have hhead : (flag ++ radix :: (digits ++ rest)).head?.any isBaseLetter = true := by
    rcases hflag with rfl | rfl
    · simp [isBaseLetter, hradix]
    · rfl
  rw [Single, List.append_assoc, List.cons_append, ofCons_based hhead (by rw [htail]), htail,
    Nat.add_comm]
  rfl

/-- A number with a size, a tick and a base. -/
theorem single_sized (flag : List Char) (hd : d.isDigit = true)
    (hds : ∀ c ∈ ds, isDecimal c = true) (hfits : sizeFits (d :: ds) = true)
    (hflag : flag = [] ∨ flag = ['s']) (hradix : isRadix radix = true)
    (hsign : isSignFlag radix = false) (hne : digits ≠ [])
    (hdigits : ∀ d ∈ digits, isBasedDigit radix d = true) (hrest : Delimits rest) :
    Single (some .sizedLiteral) d (ds ++ '\'' :: (flag ++ radix :: digits)) rest := by
  have htail := basedTail_append flag hflag hradix hsign hne hdigits hrest
  have hsize : ∀ c ∈ d :: ds, isDecimal c = true :=
    List.forall_mem_cons.mpr ⟨isDecimal_of_isDigit hd, hds⟩
  have hbegins : beginsBased ('\'' :: (flag ++ radix :: (digits ++ rest))) = true := by
    rcases hflag with rfl | rfl
    · simp [beginsBased, isBaseLetter, hradix]
    · rfl
  have htake : (d :: ds ++ '\'' :: (flag ++ radix :: (digits ++ rest))).takeWhile isDecimal =
      d :: ds :=
    Ends.takeWhile_append (fun r hr => by cases hr; decide) hsize
  have hgap : ('\'' :: (flag ++ radix :: (digits ++ rest))).takeWhile isGap = [] :=
    List.takeWhile_cons_of_neg (by decide)
  have htext : d :: (ds ++ '\'' :: (flag ++ radix :: digits) ++ rest) =
      d :: ds ++ '\'' :: (flag ++ radix :: (digits ++ rest)) := by simp
  rw [Single, ofCons_digit hd, htext]
  simp only [number, htake, List.drop_left, hgap, List.length_nil, List.drop_zero, hbegins, if_true,
    Nat.zero_add, List.drop_succ_cons, htail, hfits, List.append_nil]
  refine congrArg (fun width => Piece.mk (some .sizedLiteral) width []) ?_
  simp only [List.length_append, List.length_cons]
  omega

theorem single_fill (h : isFill c = true) (hbase : isBaseLetter c = false) :
    Single (some .fillLiteral) '\'' [c] rest :=
  ofCons_fill hbase h

end Based

end Netlist.Piece
