import Netlist.Proofs.Parser.Anatomy
import Netlist.Proofs.Token.Joining
import Mathlib.Data.List.Infix

/-!
Units behind others. A stream that is parsed without a report and then ends may as well go on with
more units: those before are parsed as if it ended, and those behind as if it began with them. The
parser looks farther ahead than it goes only where it searches for the ports of an instance, and
that search follows brackets; so the brackets it follows have to be closed before the stream goes
on.
-/
namespace Netlist

open List (Forall₂)
open Syntax

namespace Parser

/-- Each bracket that the search for ports can follow is closed: `[`, and `(` behind `#`. -/
def Enclosed (ts : List Token) : Prop :=
  ∀ us ∈ ts.tails, (headKind us = .leftBracket → (afterBalanced 0 us).isSome = true) ∧
    (headKind us = .hash → headKind us.tail = .leftParen →
      (afterBalanced 0 us.tail).isSome = true)

instance (ts : List Token) : Decidable (Enclosed ts) :=
  inferInstanceAs (Decidable (∀ us ∈ ts.tails, _))

/-- A stream that ends on the left, and on the right ends too or goes on with a unit. -/
structure Fork.Breaks (K : Fork) : Prop where
  left : ∃ e, e.kind = .eof ∧ K.left = [e]
  right : headKind K.right = .eof ∨ ∃ kind, headKind K.right = .unitStart kind

section Ahead

variable {K : Fork} {ts us : List Token}

theorem Enclosed.suffix (h : Enclosed ts) (hus : us <:+ ts) : Enclosed us := by
  intro vs hvs
  exact h vs ((List.mem_tails vs ts).mpr (((List.mem_tails vs us).mp hvs).trans hus))

theorem Enclosed.bracket (h : Enclosed ts) (hkind : headKind ts = .leftBracket) :
    ∃ rest, afterBalanced 0 ts = some rest :=
  Option.isSome_iff_exists.mp ((h ts ((List.mem_tails ts ts).mpr (List.suffix_refl ts))).1 hkind)

theorem Enclosed.hash (h : Enclosed ts) (hkind : headKind ts = .hash)
    (hparen : headKind ts.tail = .leftParen) : ∃ rest, afterBalanced 0 ts.tail = some rest :=
  Option.isSome_iff_exists.mp
    ((h ts ((List.mem_tails ts ts).mpr (List.suffix_refl ts))).2 hkind hparen)

/-- What closes the brackets is found, whatever comes behind it. -/
theorem afterBalanced_append {depth : Nat} {rest : List Token}
    (h : afterBalanced depth ts = some rest) (more : List Token) :
    afterBalanced depth (ts ++ more) = some (rest ++ more) ∧ rest <:+ ts.tail := by
  fun_induction afterBalanced depth ts with
  | case1 => cases h
  | case11 => cases h
  | case5 | case7 | case9 =>
    cases h
    simp_all [afterBalanced]
  | _ =>
    rename_i ih
    obtain ⟨hfound, hsuffix⟩ := ih h
    refine ⟨?_, hsuffix.trans (List.tail_suffix _)⟩
    rw [List.cons_append, afterBalanced]
    simp_all

/-- Where a stream breaks stands no token of a unit. -/
theorem Fork.Breaks.head (hK : K.Breaks) {P : Kind → Prop} (heof : P .eof)
    (hunit : ∀ kind, P (.unitStart kind)) : P (headKind K.left) ∧ P (headKind K.right) := by
  obtain ⟨⟨e, he, hleft⟩, hright⟩ := hK
  constructor
  · rw [hleft, headKind, he]
    exact heof
  · rcases hright with hend | ⟨kind, hkind⟩
    · rwa [hend]
    · rw [hkind]
      exact hunit kind

theorem Fork.Breaks.head_ne (hK : K.Breaks) (kind : Kind) (heof : kind ≠ .eof)
    (hstart : kind.isUnitStart = false) : headKind K.left ≠ kind ∧ headKind K.right ≠ kind := by
  refine hK.head (P := (· ≠ kind)) heof.symm ?_
  rintro unit rfl
  cases hstart

private theorem opensPorts_break (hK : K.Breaks) (b b' : Nat) :
    opensPorts b K.left = opensPorts b' K.right := by
  have hclosed (n : Nat) {r : List Token} (hparen : headKind r ≠ .leftParen)
      (hbracket : headKind r ≠ .leftBracket) : opensPorts n r = false := by
    cases n <;> simp [opensPorts, hparen, hbracket]
  obtain ⟨hparen, hparen'⟩ := hK.head_ne .leftParen (by simp) rfl
  obtain ⟨hbracket, hbracket'⟩ := hK.head_ne .leftBracket (by simp) rfl
  rw [hclosed b hparen hbracket, hclosed b' hparen' hbracket']

private theorem opensPorts_fork (hK : K.Breaks) {b b' : Nat} (hb : ts.length ≤ b)
    (hb' : ts.length ≤ b') (h : Enclosed ts) :
    opensPorts b (ts ++ K.left) = opensPorts b' (ts ++ K.right) := by
  induction b generalizing ts b' with
  | zero =>
    rw [List.length_eq_zero_iff.mp (Nat.le_zero.mp hb)]
    exact opensPorts_break hK 0 b'
  | succ b ih =>
    by_cases hne : ts = []
    · rw [hne]
      exact opensPorts_break hK (b + 1) b'
    · have hpos := List.length_pos_iff.mpr hne
      cases b' with
      | zero => omega
      | succ b' =>
        rw [opensPorts, opensPorts, headKind_append hne, headKind_append hne]
        by_cases hbracket : headKind ts = .leftBracket
        · obtain ⟨rest, hrest⟩ := h.bracket hbracket
          obtain ⟨hleft, hsuffix⟩ := afterBalanced_append hrest K.left
          obtain ⟨hright, -⟩ := afterBalanced_append hrest K.right
          have hlength := hsuffix.length_le
          rw [List.length_tail] at hlength
          rw [if_pos hbracket, if_pos hbracket, hleft, hright]
          exact ih (by omega) (by omega) (h.suffix (hsuffix.trans (List.tail_suffix ts)))
        · rw [if_neg hbracket, if_neg hbracket]

private theorem namesInstance_fork (hK : K.Breaks) (h : Enclosed ts) :
    namesInstance (ts ++ K.left) = namesInstance (ts ++ K.right) := by
  unfold namesInstance
  by_cases hne : ts = []
  · obtain ⟨hleft, hright⟩ := hK.head (P := fun k => k.isIdentifier = false) rfl fun _ => rfl
    rw [hne, List.nil_append, List.nil_append, hleft, hright, Bool.false_and, Bool.false_and]
  · have hlength : ts.tail.length ≤ ts.length := by
      rw [List.length_tail]
      exact Nat.sub_le _ _
    have hports : opensPorts (ts.length + K.left.length) (ts.tail ++ K.left) =
        opensPorts (ts.length + K.right.length) (ts.tail ++ K.right) :=
      opensPorts_fork hK (by omega) (by omega) (h.suffix (List.tail_suffix ts))
    rw [headKind_append hne, headKind_append hne, List.tail_append_of_ne_nil hne,
      List.tail_append_of_ne_nil hne, List.length_append, List.length_append, hports]

private theorem continuesInstantiation_fork (hK : K.Breaks) (h : Enclosed ts) :
    continuesInstantiation (ts ++ K.left) = continuesInstantiation (ts ++ K.right) := by
  unfold continuesInstantiation
  rw [namesInstance_fork hK h]
  by_cases hne : ts = []
  · obtain ⟨hleft, hright⟩ := hK.head_ne .hash (by simp) rfl
    rw [hne, List.nil_append, List.nil_append, if_neg hleft, if_neg hright]
  · rw [headKind_append hne, headKind_append hne, List.tail_append_of_ne_nil hne,
      List.tail_append_of_ne_nil hne]
    by_cases hhash : headKind ts = .hash
    · rw [if_pos hhash, if_pos hhash]
      by_cases htail : ts.tail = []
      · obtain ⟨hleft, hright⟩ := hK.head_ne .leftParen (by simp) rfl
        rw [htail, List.nil_append, List.nil_append, if_neg hleft, if_neg hright]
      · rw [headKind_append htail, headKind_append htail]
        by_cases hparen : headKind ts.tail = .leftParen
        · obtain ⟨rest, hrest⟩ := h.hash hhash hparen
          obtain ⟨hleft, hsuffix⟩ := afterBalanced_append hrest K.left
          obtain ⟨hright, -⟩ := afterBalanced_append hrest K.right
          rw [if_pos hparen, if_pos hparen, hleft, hright]
          apply namesInstance_fork hK
          exact h.suffix (hsuffix.trans ((List.tail_suffix _).trans (List.tail_suffix ts)))
        · rw [if_neg hparen, if_neg hparen]
    · rw [if_neg hhash, if_neg hhash]

/-- The search for ports does not run into what comes behind the break. -/
theorem Enclosed.agrees (h : Enclosed ts) (hK : K.Breaks) : K.Agrees ts where
  instantiation := continuesInstantiation_fork hK (h.suffix (List.tail_suffix ts))
  declaration := by
    by_cases hne : ts.tail = []
    · obtain ⟨hleft, hright⟩ :=
        hK.head (P := fun k => continuesDeclaration k = false) rfl fun _ => rfl
      rw [hne, List.nil_append, List.nil_append, hleft, hright]
    · rw [headKind_append hne, headKind_append hne]

end Ahead

section Units

variable {K : Fork} {all ts us : List Token} {c c' : Cursor} {s t : Session} {kind : UnitKind}

/-- What is consumed is not the end, so it stands before the break. -/
theorem Fork.Breaks.passes (hK : K.Breaks) (h : c.Passes ts c') (hrest : c.rest = us ++ K.left) :
    ∃ vs, us = ts ++ vs ∧ c'.rest = vs ++ K.left := by
  obtain ⟨⟨e, he, hleft⟩, -⟩ := hK
  have hsame := h.rest
  rw [hrest, hleft, List.append_eq_append_iff] at hsame
  rcases hsame with ⟨vs, hts, hend⟩ | ⟨vs, hus, hrest'⟩
  · cases vs with
    | nil =>
      rw [List.append_nil] at hts
      exact ⟨[], by rw [hts, List.append_nil], by rw [hleft]; exact hend.symm⟩
    | cons v vs =>
      obtain ⟨rfl, -⟩ := List.cons.inj hend
      exact absurd he (h.inner e (by rw [hts]; simp))
  · exact ⟨vs, hus, by rw [hleft]; exact hrest'⟩

/-- A name in front is read without a look at what comes behind it. -/
theorem expectIdentifier_run (hname : c.current.isIdentifier = true) (s : Session) :
    (expectIdentifier.task c).run s =
      ((⟨(s.intern c.currentText).1, c.currentSpan⟩, c.advance), (s.intern c.currentText).2) := by
  have hintern : ((intern c.currentText).task c).run s =
      (((s.intern c.currentText).1, c), (s.intern c.currentText).2) := rfl
  rw [expectIdentifier, nameOr, run_bind Reads.look.run, if_pos hname, nameAt, run_bind hintern,
    run_bind (take_run rfl _).1]
  rfl

/-- Consuming a token before the break. -/
theorem advance_turn {u : Token} (hrest : c.rest = u :: us ++ K.left) (heof : u.kind ≠ .eof) :
    (K.turn (u :: us) c).advance = K.turn us c.advance := by
  simp only [Fork.turn, Cursor.advance, hrest, List.cons_append, if_neg heof]

theorem isIdentifier_of_quiet (h : (expectIdentifier.task c).emitted s = []) :
    c.current.isIdentifier = true := by
  by_contra hmissing
  rw [expectIdentifier, nameOr, emitted_bind Reads.look.run, if_neg hmissing,
    emitted_bind (report_run _ c s)] at h
  cases h

theorem current_of_quiet {kind : Kind} (h : ((expect kind).task c).emitted s = []) :
    c.current = kind := by
  by_contra hother
  rw [expect, emitted_bind (Reads.eat_other hother).run] at h
  cases h

/-- A name that is read without a report is read on both ways. -/
theorem turn_expectIdentifier (hK : K.Breaks) (hrest : c.rest = us ++ K.left) {name : Identifier}
    (hrun : (expectIdentifier.task c).run s = ((name, c'), t))
    (hquiet : (expectIdentifier.task c).emitted s = []) :
    ∃ vs, c'.rest = vs ++ K.left ∧ vs <:+ us ∧
      (expectIdentifier.task (K.turn us c)).run s = ((name, K.turn vs c'), t) := by
  have hname := isIdentifier_of_quiet hquiet
  cases us with
  | nil =>
    obtain ⟨hleft, -⟩ := hK.head (P := fun k => k.isIdentifier = false) rfl fun _ => rfl
    rw [current_of_rest hrest, List.nil_append, hleft] at hname
    cases hname
  | cons u us =>
    have hcurrent : c.current = u.kind := current_of_rest hrest
    have hname' : (K.turn (u :: us) c).current.isIdentifier = true := by
      rw [current_turn (List.cons_ne_nil u us)]
      rwa [hcurrent] at hname
    have heof : u.kind ≠ .eof := by
      intro heof
      rw [hcurrent, heof] at hname
      cases hname
    rw [expectIdentifier_run hname] at hrun
    cases hrun
    refine ⟨us, rest_advance hrest heof, List.suffix_cons u us, ?_⟩
    rw [expectIdentifier_run hname', currentText_turn hrest (List.cons_ne_nil u us),
      currentSpan_turn hrest (List.cons_ne_nil u us), advance_turn hrest heof]

/-- A label that is read without a report is read on both ways. -/
theorem turn_endLabel? (hK : K.Breaks) (hrest : c.rest = us ++ K.left) {label : Option Identifier}
    (hrun : (endLabel?.task c).run s = ((label, c'), t))
    (hquiet : (endLabel?.task c).emitted s = []) :
    ∃ vs, c'.rest = vs ++ K.left ∧ vs <:+ us ∧
      (endLabel?.task (K.turn us c)).run s = ((label, K.turn vs c'), t) := by
  have hnone (hother : c.current ≠ .colon) (hother' : (K.turn us c).current ≠ .colon) :
      ∃ vs, c'.rest = vs ++ K.left ∧ vs <:+ us ∧
        (endLabel?.task (K.turn us c)).run s = ((label, K.turn vs c'), t) := by
    rw [endLabel?, after, run_bind (Reads.eat_other hother).run] at hrun
    cases hrun
    refine ⟨us, hrest, List.suffix_refl us, ?_⟩
    rw [endLabel?, after, run_bind (Reads.eat_other hother').run]
    rfl
  cases us with
  | nil =>
    obtain ⟨hleft, hright⟩ := hK.head_ne .colon (by simp) rfl
    exact hnone (by rwa [current_of_rest hrest]) (by rwa [current_of_rest rfl])
  | cons u us =>
    have hcurrent : c.current = u.kind := current_of_rest hrest
    have hcurrent' : (K.turn (u :: us) c).current = u.kind := current_of_rest rfl
    by_cases hcolon : u.kind = .colon
    · have heof : u.kind ≠ .eof := by simp [hcolon]
      have heat {d : Cursor} (h : d.current = u.kind) :
          ((eat .colon).task d).run s = ((true, d.advance), s) := by
        show ((if d.current = .colon then (true, d.advance) else (false, d)), s) = _
        rw [if_pos (h.trans hcolon)]
      have hrest' : c.advance.rest = us ++ K.left := rest_advance hrest heof
      rcases hname : (expectIdentifier.task c.advance).run s with ⟨⟨name, d⟩, v⟩
      have hmap {e e' : Cursor} (h : (expectIdentifier.task e).run s = ((name, e'), v)) :
          ((some <$> expectIdentifier).task e).run s = ((some name, e'), v) := run_bind h
      have hsilent : (expectIdentifier.task c.advance).emitted s = [] := by
        have hmapped : ((some <$> expectIdentifier).task c.advance).emitted s =
            (expectIdentifier.task c.advance).emitted s :=
          (emitted_bind hname).trans (List.append_nil _)
        rw [endLabel?, after, emitted_bind (heat hcurrent), List.append_eq_nil_iff] at hquiet
        exact hmapped.symm.trans hquiet.2
      rw [endLabel?, after, run_bind (heat hcurrent), if_pos rfl, hmap hname] at hrun
      cases hrun
      obtain ⟨vs, hleft, hvs, hturned⟩ := turn_expectIdentifier hK hrest' hname hsilent
      refine ⟨vs, hleft, hvs.trans (List.suffix_cons u us), ?_⟩
      rw [endLabel?, after, run_bind (heat hcurrent'), if_pos rfl, advance_turn hrest heof,
        hmap hturned]
    · exact hnone (by rwa [hcurrent]) (by rwa [hcurrent'])

private theorem expect_run {kind : Kind} (h : c.current = kind) (s : Session) :
    ((expect kind).task c).run s = (((), c.advance), s) := by
  have heat : ((eat kind).task c).run s = ((true, c.advance), s) := by
    show ((if c.current = kind then (true, c.advance) else (false, c)), s) = _
    rw [if_pos h]
  rw [expect, run_bind heat]
  rfl

/-- What is read of a unit without a report is read on both ways. -/
theorem turn_unitBody (hK : K.Breaks) (henclosed : Enclosed us) (hrest : c.rest = us ++ K.left)
    {body : Identifier × List Item × Option Identifier}
    (hrun : ((unitBody kind).task c).run s = ((body, c'), t))
    (hquiet : ((unitBody kind).task c).emitted s = []) :
    ∃ vs, c'.rest = vs ++ K.left ∧ vs <:+ us ∧
      ((unitBody kind).task (K.turn us c)).run s = ((body, K.turn vs c'), t) := by
  rcases hfront : ((unitFront kind).task c).run s with ⟨⟨⟨name, items⟩, d⟩, u⟩
  obtain ⟨ts, hpasses⟩ := Cursor.Passes.exists_run (unitFront kind) c s
  rw [hfront] at hpasses
  obtain ⟨ws, hus, hd⟩ := hK.passes hpasses hrest
  obtain ⟨hbody, htold⟩ := unitBody_run hfront
  rw [htold, List.append_eq_nil_iff] at hquiet
  rcases hexpect : ((expect (.unitEnd kind)).task d).run u with ⟨⟨_, e⟩, v⟩
  have hclosing := hquiet.2
  rw [emitted_bind hexpect, List.append_eq_nil_iff] at hclosing
  have hword : d.current = .unitEnd kind := current_of_quiet hclosing.1
  rw [expect_run hword] at hexpect
  cases hexpect
  have hclosed := expect_run hword u
  cases ws with
  | nil =>
    obtain ⟨hleft, -⟩ := hK.head_ne (.unitEnd kind) (by simp) rfl
    rw [current_of_rest hd] at hword
    exact absurd hword hleft
  | cons w ws =>
    have hw : w.kind = .unitEnd kind := (current_of_rest hd).symm.trans hword
    have heof : w.kind ≠ .eof := by simp [hw]
    rcases hlabel : (endLabel?.task d.advance).run u with ⟨⟨label, e⟩, v⟩
    have hsilent : (endLabel?.task d.advance).emitted u = [] := by
      have hnone := hclosing.2
      rw [emitted_bind hlabel, List.append_eq_nil_iff] at hnone
      exact hnone.1
    obtain ⟨vs, hvs, hsuffix, hturned⟩ :=
      turn_endLabel? hK (rest_advance hd heof) hlabel hsilent
    rw [hbody, run_bind hclosed, run_bind hlabel] at hrun
    cases hrun
    refine ⟨vs, hvs, ?_, ?_⟩
    · rw [hus]
      exact (hsuffix.trans (List.suffix_cons w ws)).trans (List.suffix_append ts (w :: ws))
    · have hblind : Blind K us (unitFront kind) (unitFront kind) :=
        blind_unitFront kind fun vs hvs _ => (henclosed.suffix hvs).agrees hK
      have hfront' := hblind c hrest s _ d u (w :: ws) hfront hd (List.cons_ne_nil w ws)
      have hword' : (K.turn (w :: ws) d).current = .unitEnd kind :=
        (current_turn (List.cons_ne_nil w ws)).trans hw
      rw [(unitBody_run hfront').1, run_bind (expect_run hword' u), advance_turn hd heof,
        run_bind hturned]
      rfl

/-- A unit that is read without a report is read on both ways. -/
theorem turn_designUnit (hK : K.Breaks) (henclosed : Enclosed us) (hrest : c.rest = us ++ K.left)
    (hkind : c.current = .unitStart kind) {unit : DesignUnit}
    (hrun : ((designUnit kind).task c).run s = ((unit, c'), t))
    (hquiet : ((designUnit kind).task c).emitted s = []) :
    ∃ vs, c'.rest = vs ++ K.left ∧ vs <:+ us.tail ∧ us ≠ [] ∧
      ((designUnit kind).task (K.turn us c)).run s = ((unit, K.turn vs c'), t) := by
  cases us with
  | nil =>
    obtain ⟨e, he, hleft⟩ := hK.left
    rw [current_of_rest hrest, hleft, List.nil_append, headKind, he] at hkind
    cases hkind
  | cons o us =>
    have hopener : o.kind = .unitStart kind := (current_of_rest hrest).symm.trans hkind
    have heof : o.kind ≠ .eof := by simp [hopener]
    have hrest' : c.advance.rest = us ++ K.left := rest_advance hrest heof
    rcases hbody : ((unitBody kind).task c.advance).run s with ⟨⟨⟨name, items, label⟩, d⟩, u⟩
    obtain ⟨ts, hpasses⟩ := Cursor.Passes.exists_run (unitBody kind) c.advance s
    rw [hbody] at hpasses
    obtain ⟨last, hfile, hprev, hconsumed⟩ := (Cursor.Passes.opener hrest heof).exists_last hpasses
    obtain ⟨hunit, htold⟩ := designUnit_run hrest hopener hbody hfile hprev hconsumed
    rw [htold] at hquiet
    rw [hunit] at hrun
    cases hrun
    obtain ⟨vs, hvs, hsuffix, hturned⟩ :=
      turn_unitBody hK (henclosed.suffix (List.suffix_cons o us)) hrest' hbody hquiet
    rw [← advance_turn hrest heof] at hturned
    have hright : (K.turn (o :: us) c).rest = o :: (us ++ K.right) := rfl
    exact ⟨vs, hvs, hsuffix, List.cons_ne_nil o us,
      (designUnit_run hright hopener hturned hfile hprev hconsumed).1⟩

/-- Without a report there is a unit or nothing. -/
theorem current_of_quietUnits {bound : Nat}
    (h : ((unitsWithin (bound + 1)).task c).emitted s = []) :
    c.current = .eof ∨ ∃ kind, c.current = .unitStart kind := by
  rw [unitsWithin, emitted_bind Reads.current.run] at h
  split at h
  next heof => exact .inl heof
  next kind hkind => exact .inr ⟨kind, hkind⟩
  next =>
    rw [emitted_bind (report_run _ c s)] at h
    cases h

/-- The units that are read without a report, up to the end, are read on the other way too, and then
those that follow there. -/
theorem turn_unitsWithin (hK : K.Breaks) (henclosed : Enclosed us) (hrest : c.rest = us ++ K.left)
    (hinner : ∀ u ∈ us, u.kind ≠ .eof) {bound bound' : Nat} (hbound : c.rest.length ≤ bound)
    (hbound' : us.length + K.right.length ≤ bound') {units : List DesignUnit}
    (hrun : ((unitsWithin bound).task c).run s = ((units, c'), t))
    (hquiet : ((unitsWithin bound).task c).emitted s = []) :
    c'.rest = K.left ∧ ∃ later, K.right.length ≤ later ∧ ∀ more d u,
      ((unitsWithin later).task (K.turn [] c')).run t = ((more, d), u) →
        ((unitsWithin bound').task (K.turn us c)).run s = ((units ++ more, d), u) := by
  induction bound generalizing c us s units bound' with
  | zero =>
    obtain ⟨e, he, hleft⟩ := hK.left
    rw [hrest, hleft, List.length_append, List.length_singleton] at hbound
    omega
  | succ bound ih =>
    have hfirst := current_of_quietUnits hquiet
    rw [unitsWithin, run_bind Reads.current.run] at hrun
    rw [unitsWithin, emitted_bind Reads.current.run] at hquiet
    rcases hfirst with heof | ⟨kind, hkind⟩
    · rw [heof] at hrun
      cases hrun
      cases us with
      | nil =>
        rw [List.length_nil, Nat.zero_add] at hbound'
        exact ⟨hrest, bound', hbound', fun _ _ _ h => h⟩
      | cons u us =>
        rw [current_of_rest hrest] at heof
        exact absurd heof (hinner u List.mem_cons_self)
    · rw [hkind] at hrun hquiet
      rcases hunit : ((designUnit kind).task c).run s with ⟨⟨unit, d⟩, u⟩
      rcases hmore : ((unitsWithin bound).task d).run u with ⟨⟨units', e⟩, v⟩
      dsimp only at hrun hquiet
      rw [run_bind hunit, run_bind hmore] at hrun
      rw [emitted_bind hunit, emitted_bind hmore, List.append_eq_nil_iff,
        List.append_eq_nil_iff, List.append_eq_nil_iff] at hquiet
      cases hrun
      obtain ⟨vs, hd, hvs, hne, hturned⟩ :=
        turn_designUnit hK henclosed hrest hkind hunit hquiet.2.1
      have hsuffix : vs <:+ us := hvs.trans (List.tail_suffix us)
      have hlength := hvs.length_le
      have hpos := List.length_pos_iff.mpr hne
      rw [List.length_tail] at hlength
      cases bound' with
      | zero => omega
      | succ bound' =>
        have hshorter : d.rest.length ≤ bound := by
          rw [hrest, List.length_append] at hbound
          rw [hd, List.length_append]
          omega
        have hboth : vs.length + K.right.length ≤ bound' := by omega
        obtain ⟨hend, later, hlater, hcontinue⟩ :=
          ih (henclosed.suffix hsuffix) hd (fun w hw => hinner w (hsuffix.mem hw)) hshorter hboth
            hmore hquiet.2.2.1
        refine ⟨hend, later, hlater, fun more f w hrest' => ?_⟩
        have hkind' : (current.task (K.turn us c)).run s = ((.unitStart kind, K.turn us c), s) := by
          rw [Reads.current.run, current_turn hne, ← current_common hrest hne, hkind]
        rw [unitsWithin, run_bind hkind']
        dsimp only
        rw [run_bind hturned, run_bind (hcontinue more f w hrest')]
        rfl

/-- Every unit consumes a token, so a bound is never reached if it is at least their number. -/
theorem unitsWithin_bound {b b' : Nat} (hb : c.rest.length ≤ b) (hb' : c.rest.length ≤ b')
    (s : Session) : ((unitsWithin b).task c).run s = ((unitsWithin b').task c).run s := by
  have hnone {c : Cursor} (h : c.rest.length ≤ 0) (b : Nat) (s : Session) :
      ((unitsWithin b).task c).run s = (([], c), s) := by
    have heof : c.current = .eof :=
      current_of_rest (List.length_eq_zero_iff.mp (Nat.le_zero.mp h))
    cases b with
    | zero => rfl
    | succ b =>
      rw [unitsWithin, run_bind Reads.current.run, heof]
      rfl
  induction b generalizing c b' s with
  | zero => rw [hnone hb, hnone hb]
  | succ b ih =>
    cases b' with
    | zero => rw [hnone hb', hnone hb']
    | succ b' =>
      rw [unitsWithin, unitsWithin, run_bind Reads.current.run, run_bind Reads.current.run]
      split
      next => rfl
      next kind hkind =>
        rcases hunit : ((designUnit kind).task c).run s with ⟨⟨unit, d⟩, t⟩
        have heats : Eats c.rest (designUnit kind) := .kept Silent.currentSpan.keeps fun _ =>
          (Eats.take ((current_of_rest rfl).symm.trans hkind) (by simp)).bind
        have hshorter := heats c s rfl
        rw [hunit] at hshorter
        dsimp only at hshorter
        have hmore := ih (c := d) (by omega) (show d.rest.length ≤ b' by omega) t
        rcases hrest : ((unitsWithin b).task d).run t with ⟨⟨units, e⟩, u⟩
        rw [run_bind hunit, run_bind hunit, run_bind hrest, run_bind (hmore.symm.trans hrest)]
      next hother hunit =>
        have hreport := report_run .expectedUnit c s
        have hne : c.rest ≠ [] := fun hnil => hother (current_of_rest hnil)
        have hshorter : ({ c with errors := c.errors + 1 }.skipUntil
            Kind.isUnitStart).rest.length < c.rest.length :=
          length_skipUntil hother (isUnitStart_of_ne hunit) hne
        rw [run_bind hreport, run_bind hreport, run_bind (skipUntil_run _ _ _),
          run_bind (skipUntil_run _ _ _)]
        exact ih (by omega) (by omega) _

end Units

end Parser

/-- Cursors with corresponding tokens ahead, whatever lies behind them. -/
structure Frame.Ahead (F : Frame) (c c' : Parser.Cursor) : Prop where
  file : c.file = F.file
  file' : c'.file = F.file'
  rest : Forall₂ F.Tokens c.rest c'.rest
  consumed : c'.consumed = c.consumed + F.ahead
  errors : c.errors = F.errors
  errors' : c'.errors = F.errors
  misuse : c.misuse = none
  misuse' : c'.misuse = none

/-- Behind the first token the cursors correspond. -/
theorem Frame.Ahead.advance {F : Frame} {c c' : Parser.Cursor} (h : F.Ahead c c')
    (heof : c.current ≠ .eof) :
    F.span c.currentSpan c'.currentSpan ∧ F.Cursors c.advance c'.advance := by
  obtain ⟨file, prev, rest, consumed, errors, misuse⟩ := c
  obtain ⟨file', prev', rest', consumed', errors', misuse'⟩ := c'
  have hfile : file = F.file := h.file
  have hfile' : file' = F.file' := h.file'
  have hrest : Forall₂ F.Tokens rest rest' := h.rest
  cases hrest with
  | nil => exact absurd rfl heof
  | @cons t t' ts ts' ht hts =>
    have hkind : t.kind ≠ .eof := heof
    have hkind' : t'.kind ≠ .eof := ht.kind ▸ hkind
    unfold Parser.Cursor.advance Parser.Cursor.currentSpan
    simp only [if_neg hkind, if_neg hkind', hfile, hfile']
    exact ⟨ht.span, {
      file := rfl, file' := rfl, rest := hts, prev := .some ht
      consumed := (congrArg (· + 1) h.consumed).trans (Nat.add_right_comm _ _ _)
      errors := h.errors.trans h.errors'.symm, faulty := fun hne => absurd h.errors hne
      started := nofun, abreast := nofun, origin := nofun
      misuse := h.misuse, misuse' := h.misuse' }⟩

namespace Parser

section Apart

variable {F : Frame} {c c' : Cursor} {kind : UnitKind} {start : Span}

/-- What follows the opening word of a unit. -/
def unitRest (kind : UnitKind) (start : Span) : ParserM DesignUnit := do
  let (name, items, endLabel) ← unitBody kind
  return ⟨kind, name, items, endLabel, ← spanFrom start⟩

/-- What follows the opening word of the first of some units. -/
def opened (kind : UnitKind) (start : Span) (bound : Nat) : ParserM (List DesignUnit) := do
  let first ← unitRest kind start
  return first :: (← unitsWithin bound)

theorem unitsWithin_opened (hkind : c.current = .unitStart kind) (bound : Nat) (s : Session) :
    ((unitsWithin (bound + 1)).task c).run s =
        ((opened kind c.currentSpan bound).task c.advance).run s ∧
      ((unitsWithin (bound + 1)).task c).emitted s =
        ((opened kind c.currentSpan bound).task c.advance).emitted s := by
  have hcurrent : (current.task c).run s = ((.unitStart kind, c), s) := by
    rw [Reads.current.run, hkind]
  obtain ⟨htake, hquiet⟩ := take_run hkind s
  rcases hrest : ((unitRest kind c.currentSpan).task c.advance).run s with ⟨⟨unit, d⟩, t⟩
  have hunit : ((designUnit kind).task c).run s = ((unit, d), t) := by
    rw [designUnit, run_bind Reads.currentSpan.run, run_bind htake]
    exact hrest
  have htold : ((designUnit kind).task c).emitted s =
      ((unitRest kind c.currentSpan).task c.advance).emitted s := by
    rw [designUnit, emitted_bind Reads.currentSpan.run, emitted_bind htake, hquiet]
    rfl
  rw [unitsWithin, run_bind hcurrent, emitted_bind hcurrent]
  dsimp only
  rw [run_bind hunit, emitted_bind hunit, opened, run_bind hrest, emitted_bind hrest, htold]
  exact ⟨rfl, rfl⟩

theorem mirror_opened (hopens : F.opens) {start' : Span} (hstart : F.span start start')
    (bound : Nat) : Mirror F (Forall₂ (DesignUnit.Alike F)) (opened kind start bound)
      (opened kind start' bound) := by
  refine Mirror.bind (Q := DesignUnit.Alike F) ?_ fun first first' hfirst => ?_
  · refine Mirror.bind (mirror_unitBody kind) fun body body' hbody => ?_
    obtain ⟨hname, hitems, hlabel⟩ := hbody
    exact Mirror.bind (mirror_spanFrom hstart) fun s s' hs =>
      .pure ⟨rfl, hname, hitems, hlabel, hs⟩
  · exact Mirror.bind (mirror_unitsWithin hopens bound) fun rest rest' hrest =>
      .pure (.cons hfirst hrest)

/-- Units that are read without a report are read alike wherever they stand. -/
theorem alike_unitsWithin {P : Pairing} (hserves : Serves F P) (hopens : F.opens)
    (hc : F.Ahead c c') {bound : Nat} {units units' : List DesignUnit} {d d' : Cursor}
    {s s' t t' : Session} (hrun : ((unitsWithin bound).task c).run s = ((units, d), t))
    (hrun' : ((unitsWithin bound).task c').run s' = ((units', d'), t'))
    (hholds : P.Holds s t s' t') (hquiet : ((unitsWithin bound).task c).emitted s = []) :
    Forall₂ (DesignUnit.Alike F) units units' ∧ ((unitsWithin bound).task c').emitted s' = [] := by
  cases bound with
  | zero =>
    cases hrun
    cases hrun'
    exact ⟨.nil, rfl⟩
  | succ bound =>
    have hcurrent : c'.current = c.current := by
      rw [current_of_rest rfl, current_of_rest rfl, Frame.Cursors.headKind_tokens hc.rest]
    by_cases hend : c.current = .eof
    · rw [unitsWithin, run_bind Reads.current.run, hend] at hrun
      rw [unitsWithin, run_bind Reads.current.run, hcurrent, hend] at hrun'
      cases hrun
      cases hrun'
      refine ⟨.nil, ?_⟩
      rw [unitsWithin, emitted_bind Reads.current.run, hcurrent, hend]
      rfl
    · obtain ⟨kind, hkind⟩ := (current_of_quietUnits hquiet).resolve_left hend
      obtain ⟨hspan, hcursors⟩ := hc.advance hend
      obtain ⟨hopened, htold⟩ := unitsWithin_opened hkind bound s
      obtain ⟨hopened', htold'⟩ := unitsWithin_opened (hcurrent.trans hkind) bound s'
      rw [hopened] at hrun
      rw [hopened'] at hrun'
      rw [htold] at hquiet
      have hboth := ((mirror_opened hopens hspan bound).paired hserves hcursors).run
        (by rw [hrun, hrun']; exact hholds)
      rw [hrun, hrun'] at hboth
      obtain ⟨⟨hunits, -⟩, hdiags, -⟩ := hboth
      rw [hquiet, List.forall₂_nil_left_iff] at hdiags
      exact ⟨hunits, htold'.trans hdiags⟩

end Apart

end Parser

end Netlist
