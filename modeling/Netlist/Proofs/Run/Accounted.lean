import Netlist.Proofs.Parser.Anatomy

/-!
The parser accounts for every token. A text falls into units and runs of stray tokens between them.
A token of a unit lies in the span of that unit alone, and inside its body in the span of one item
unless it is a semicolon that stands alone. A stray run is reported once, at its first token; where
it follows the colon of a label, that token has been reported as no name before.

Where the reports about a run lie is told by two bounds. Nothing is reported before the token at
which a unit begins. And what is reported about a unit up to its closing word starts no later than
that word, since a parser that has not come farther cannot tell where the tokens behind it stand: it
does the same if all of these stand at one place.
-/
namespace Netlist

open List (Forall₂)
open Syntax

/-- Parses of one file whose spans start at places of one sort. -/
def Frame.starting (file : Nat) (P : Nat → Prop) : Frame where
  file := file
  file' := file
  name _ _ _ := True
  span s s' := (s.file = file ∧ s'.file = file) ∧ P s.start
  leaf _ _ _ _ := True
  broken := True
  flaw _ _ := True
  opens := True
  span_file h := h.1
  span_cover := by
    rintro a a' b b' ⟨hfile, ha⟩ ⟨-, hb⟩
    refine ⟨hfile, ?_⟩
    rcases Nat.le_total a.start b.start with h | h
    · rwa [Span.cover, Nat.min_eq_left h]
    · rwa [Span.cover, Nat.min_eq_right h]
  span_atStart h := h
  flaw_of_broken _ := trivial

/-- Diagnostics that start at such places. -/
def Pairing.starting (P : Nat → Prop) : Pairing where
  name _ _ _ := True
  known _ _ := False
  diag d _ := P d.span.start
  broken := True

namespace Parser

variable {α : Type} {file : Nat} {P : Nat → Prop} {all : List Token} {c c' : Cursor}

theorem cursors_starting (hfile : c.file = file) (hmisuse : c.misuse = none)
    (hrest : ∀ t ∈ c.rest, P t.start) {p : Token} (hprev : c.prev = some p) (hp : P p.start) :
    (Frame.starting file P).Cursors c c := by
  have hsame (t : Token) (ht : P t.start) : (Frame.starting file P).Tokens t t :=
    ⟨rfl, rfl, ⟨⟨rfl, rfl⟩, ht⟩, trivial, fun _ => trivial⟩
  have hbehind : c.prev ≠ none := by
    rw [hprev]
    nofun
  refine .self ⟨fun hnone => absurd hnone hbehind, hmisuse⟩ hfile hfile rfl (fun _ => trivial)
    (fun t ht => hsame t (hrest t ht)) (fun t ht => hsame t ?_) fun _ hnone => absurd hnone hbehind
  rw [hprev] at ht
  exact Option.some.inj ht ▸ hp

/-- A parser reports at such places only. -/
theorem starts_emitted {Q : α → α → Prop} {x : ParserM α}
    (h : Mirror (Frame.starting file P) Q x x) (hc : (Frame.starting file P).Cursors c c)
    (s : Session) : ∀ d ∈ (x.task c).emitted s, P d.span.start := by
  have hserves : Serves (Frame.starting file P) (Pairing.starting P) :=
    ⟨fun _ _ _ _ => trivial, fun _ => trivial, fun _ _ _ hs => hs.2⟩
  have hholds : (Pairing.starting P).Holds s ((x.task c).run s).2 s ((x.task c).run s).2 :=
    ⟨fun _ _ _ _ _ => trivial, nofun, fun _ => trivial⟩
  obtain ⟨-, hdiags, -⟩ := (h.paired hserves hc).run hholds
  exact List.forall₂_same.mp hdiags

theorem mirror_unitFront {F : Frame} (kind : UnitKind) :
    Mirror F (fun _ _ => True) (unitFront kind) (unitFront kind) := by
  refine Mirror.bind mirror_expectIdentifier fun _ _ _ => ?_
  refine Mirror.bindEq mirror_recoverToSemicolon fun _ => ?_
  refine Mirror.bindEq mirror_remaining fun bound => ?_
  exact Mirror.bind (mirror_itemsWithin kind bound) fun _ _ _ => .pure trivial

/-- Parsers that leave the same session behind have emitted the same. -/
theorem emitted_of_run {x y : Task α} {s : Session} (h : (x.run s).2 = (y.run s).2) :
    x.emitted s = y.emitted s := by
  have hheld := Task.held_run x s
  rw [h, Task.held_run y s] at hheld
  exact (List.append_cancel_left hheld).symm

/-- Streams that go on with the same kinds of tokens agree on what begins. -/
theorem agrees_of_tokens {F : Frame} {K : Fork} {ts : List Token}
    (hts : ∀ t ∈ ts, F.Tokens t t) (h : Forall₂ F.Tokens K.left K.right) : K.Agrees ts := by
  have htail : Forall₂ F.Tokens (ts.tail ++ K.left) (ts.tail ++ K.right) :=
    List.rel_append (List.forall₂_same.mpr fun t ht => hts t (List.mem_of_mem_tail ht)) h
  exact ⟨Frame.Cursors.continuesInstantiation_tokens htail,
    congrArg continuesDeclaration (Frame.Cursors.headKind_tokens htail)⟩

/-- The front of a unit reports nothing behind the token it stops at. -/
theorem starts_unitFront (hall : all.Pairwise Token.Before) {kind : UnitKind} (hc : c.Stands all)
    (hmisuse : c.misuse = none) {p : Token} (hprev : c.prev = some p)
    (hp : ∀ t ∈ c.rest, p.start ≤ t.start) {s t : Session} {a : Identifier × List Item}
    (hrun : ((unitFront kind).task c).run s = ((a, c'), t)) {e : Token} {r : List Token}
    (he : c'.rest = e :: r) :
    ∀ d ∈ ((unitFront kind).task c).emitted s, d.span.start ≤ e.start := by
  obtain ⟨ts, hpasses⟩ := Cursor.Passes.exists_run (unitFront kind) c s
  rw [hrun] at hpasses
  -- Behind `e` the same tokens, all of them where `e` is.
  let K : Fork := ⟨r, r.map fun u => { u with start := e.start, stop := e.stop }⟩
  have hrest : c.rest = (ts ++ [e]) ++ K.left := by
    rw [hpasses.rest, he, List.append_assoc]
    rfl
  have hself (t : Token) : (Frame.ofFile 0).Tokens t t :=
    ⟨rfl, rfl, ⟨rfl, rfl⟩, trivial, fun _ => trivial⟩
  have hmoved : Forall₂ (Frame.ofFile 0).Tokens K.left K.right := by
    rw [List.forall₂_map_right_iff]
    exact List.forall₂_same.mpr fun t _ => ⟨rfl, rfl, ⟨rfl, rfl⟩, trivial, fun _ => trivial⟩
  have hblind : Blind K (ts ++ [e]) (unitFront kind) (unitFront kind) :=
    blind_unitFront kind fun us _ _ => agrees_of_tokens (fun t _ => hself t) hmoved
  have hturned := hblind c hrest s a c' t [e] hrun he (List.cons_ne_nil e [])
  have hsame : ((unitFront kind).task c).emitted s =
      ((unitFront kind).task (K.turn (ts ++ [e]) c)).emitted s :=
    emitted_of_run (by rw [hrun, hturned])
  have hsorted := hall.sublist hc.ahead.sublist
  rw [hpasses.rest, he, List.pairwise_append] at hsorted
  have hcursors : (Frame.starting c.file (· ≤ e.start)).Cursors (K.turn (ts ++ [e]) c)
      (K.turn (ts ++ [e]) c) := by
    refine cursors_starting rfl hmisuse (fun u hu => ?_) hprev ?_
    · rcases List.mem_append.mp hu with hu | hu
      · rcases List.mem_append.mp hu with hu | hu
        · exact Nat.le_of_lt (hsorted.2.2 u hu e List.mem_cons_self).start
        · rw [List.mem_singleton.mp hu]
      · obtain ⟨v, -, rfl⟩ := List.mem_map.mp hu
        exact Nat.le_refl _
    · apply hp e
      rw [hpasses.rest, he]
      exact List.mem_append_right _ List.mem_cons_self
  rw [hsame]
  exact starts_emitted (mirror_unitFront kind) hcursors s

theorem isHeader_of_append {header after more : List Token} (h : IsHeader header (after ++ more)) :
    IsHeader header after := by
  obtain ⟨skipped, hskipped, hend⟩ := h
  refine ⟨skipped, hskipped, hend.imp_right fun ⟨hheader, hnext⟩ => ⟨hheader, fun t ht => ?_⟩⟩
  apply hnext t
  rw [List.head?_append, ht]
  rfl

/-- A unit, the tokens it consumed and the places of what it reported. -/
theorem accounted_designUnit (hall : all.Pairwise Token.Before) {kind : UnitKind}
    (hcursors : (Frame.ofFile file).Cursors c c) (hc : c.Stands all)
    (hkind : c.current = .unitStart kind) (s : Session) :
    ∃ unit c' t opener header closing ds, ∃ body : List (Stretch Item),
      ((designUnit kind).task c).run s = ((unit, c'), t) ∧
      c.Passes (opener :: (header ++ body.flatMap Stretch.tokens ++ closing)) c' ∧
      Anatomy c.file unit opener header body closing ∧
      (closing = [] → headKind c'.rest = .eof ∨ (headKind c'.rest).isUnitStart = true) ∧
      ((designUnit kind).task c).emitted s = ds ++ labelReports c.file closing c'.rest ∧
      (∀ d ∈ ds, ∀ e ∈ (closing ++ c'.rest).head?, d.span.start ≤ e.start) ∧
      (∀ d ∈ ((designUnit kind).task c).emitted s, opener.start ≤ d.span.start) ∧
      (Frame.ofFile file).Cursors c' c' := by
  obtain ⟨o, r, hrest⟩ := hc.exists_next
  have hopener : o.kind = .unitStart kind := (current_of_rest hrest).symm.trans hkind
  have hinner : o.kind ≠ .eof := by
    rw [hopener]
    nofun
  have hadvance : c.advance = { c with prev := some o, rest := r, consumed := c.consumed + 1 } := by
    simp only [Cursor.advance, hrest, if_neg hinner]
  have hfirst : c.Passes [o] c.advance := .opener hrest hinner
  have hbehind : ∀ t ∈ c.advance.rest, o.start ≤ t.start := by
    have hsorted := hall.sublist hc.ahead.sublist
    rw [hrest, List.pairwise_cons] at hsorted
    rw [hadvance]
    exact fun t ht => Nat.le_of_lt (hsorted.1 t ht).start
  have hprevious : c.advance.prev = some o := by rw [hadvance]
  have hafter := hcursors.advance
  have hstands := hfirst.stands hc
  obtain ⟨name, items, d, u, header, body, hfront, hpasses, hheader, hitems, hbody, hends⟩ :=
    passes_unitFront hall kind hstands s
  obtain ⟨label, c', t, closing, ds, hclose, hpasses', hclosing, hopen, hclosed, hds⟩ :=
    passes_closing (hpasses.stands hstands) hends name items u
  have hwhole : c.Passes (o :: (header ++ body.flatMap Stretch.tokens ++ closing)) c' :=
    hfirst.trans (hpasses.trans hpasses')
  obtain ⟨last, hfile, hprev, hconsumed⟩ := hfirst.exists_last (hpasses.trans hpasses')
  obtain ⟨hunit, htold⟩ := unitBody_run hfront
  obtain ⟨hrun, hemitted⟩ :=
    designUnit_run hrest hopener (hunit.trans hclose) hfile hprev hconsumed
  refine ⟨_, c', t, o, header, closing, ((unitFront kind).task c.advance).emitted s ++ ds, body,
    hrun, hwhole, ⟨hopener, ?_, ?_, hitems, hclosing, ?_⟩, hopen, ?_, ?_, ?_, ?_⟩
  · rw [hpasses'.rest, ← List.append_assoc] at hheader
    exact isHeader_of_append hheader
  · rwa [← hfirst.file]
  · apply over_of_cover hall hwhole hc (List.cons_ne_nil _ _)
    intro p hp _
    rw [hprev] at hp
    obtain rfl := Option.some.inj hp
    rw [currentSpan_of_rest hrest rfl]
  · rw [hemitted, htold, hclosed, hpasses.file, hfirst.file, List.append_assoc]
  · intro d' hd' e he
    rw [← hpasses'.rest] at he
    obtain ⟨r', hnext⟩ := List.head?_eq_some_iff.mp he
    rcases List.mem_append.mp hd' with hd' | hd'
    · exact starts_unitFront hall hstands hafter.misuse hprevious hbehind hfront hnext d' hd'
    · rw [hds d' hd', currentSpan_of_rest hnext rfl]
      exact Nat.le_refl _
  · have hahead : (Frame.starting file (o.start ≤ ·)).Cursors c.advance c.advance :=
      cursors_starting hafter.file hafter.misuse hbehind hprevious (Nat.le_refl _)
    rw [hemitted]
    exact starts_emitted (mirror_unitBody kind) hahead s
  · obtain ⟨_, _, _, _, _, hrun', -, -, hcursors'⟩ := account_designUnit hall hcursors hc hkind s
    rw [hrun] at hrun'
    cases hrun'
    exact hcursors'

/-- Whether a report starts where one of these tokens does. -/
def startsAt (run : List Token) (d : Diagnostic) : Bool := run.any fun t => d.span.start = t.start

/-- What is reported at a run of stray tokens, for the tokens before it. -/
def strayReports (file : Nat) (before run : List Token) : List Diagnostic :=
  labelReports file before run ++
    (run.head?.map fun t => SyntaxError.expectedUnit.diagnostic (t.span file)).toList

/-- A stray run, with the parts after it. -/
structure IsStray (run : List Token) (after : List (Stretch DesignUnit)) : Prop where
  filled : run ≠ []
  closed : ∀ t ∈ run, t.kind.isUnitStart = false
  maximal : ∀ part ∈ after.head?, part.value.isSome = true

/-- The parts that a text falls into, and what was reported about them. -/
structure Accounted (file : Nat) (parts : List (Stretch DesignUnit)) (ds : List Diagnostic) :
    Prop where
  units : ∀ part ∈ parts, ∀ unit ∈ part.value, ∃ opener header body closing,
    part.tokens = opener :: (header ++ body.flatMap Stretch.tokens ++ closing) ∧
      Anatomy file unit opener header body closing
  runs : ∀ before run after, parts = before ++ ⟨run, none⟩ :: after →
    IsStray run after ∧
      ds.filter (startsAt run) = strayReports file (before.flatMap Stretch.tokens) run

section Reports

variable {before run rest : List Token} {ds : List Diagnostic}

theorem filter_startsAt_eq_nil (h : ∀ d ∈ ds, ∀ t ∈ run, d.span.start ≠ t.start) :
    ds.filter (startsAt run) = [] := by
  rw [List.filter_eq_nil_iff]
  intro d hd
  simpa [startsAt] using h d hd

/-- Only the last token before matters. -/
theorem strayReports_append {more : List Token} (hne : more ≠ []) :
    strayReports file (before ++ more) run = strayReports file more run := by
  obtain ⟨last, hlast⟩ := Option.isSome_iff_exists.mp (List.getLast?_isSome.mpr hne)
  rw [strayReports, strayReports, labelReports, labelReports, List.getLast?_append, hlast,
    Option.some_or]

/-- What is reported about a label is reported at the token behind it. -/
theorem start_of_mem_labelReports {d : Diagnostic} (h : d ∈ labelReports file before rest) :
    ∃ t ∈ rest.head?, d.span.start = t.start := by
  unfold labelReports at h
  split at h
  · rw [Option.mem_toList, Option.map_eq_some_iff] at h
    obtain ⟨t, ht, rfl⟩ := h
    exact ⟨t, ht, rfl⟩
  · cases h

end Reports

namespace Accounted

variable {parts : List (Stretch DesignUnit)} {ds es : List Diagnostic} {ts rest : List Token}

theorem nil (file : Nat) : Accounted file [] [] where
  units := nofun
  runs before run after h := by
    cases before <;> cases h

theorem tokens_ne_nil (h : Accounted file parts ds) : ∀ part ∈ parts, part.tokens ≠ [] := by
  intro part hpart
  cases hvalue : part.value with
  | some unit =>
    obtain ⟨opener, header, body, closing, htokens, -⟩ := h.units part hpart unit hvalue
    rw [htokens]
    exact List.cons_ne_nil _ _
  | none =>
    obtain ⟨before, after, hparts⟩ := List.append_of_mem hpart
    obtain ⟨run, value⟩ := part
    obtain rfl : value = none := hvalue
    exact (h.runs before run after hparts).1.filled

/-- Before a run that comes later stand tokens of the parts between. -/
private theorem flatMap_ne_nil (h : Accounted file parts ds)
    {before after : List (Stretch DesignUnit)} (hparts : parts = before ++ after)
    (hne : before ≠ []) : before.flatMap Stretch.tokens ≠ [] := by
  obtain ⟨part, before, rfl⟩ := List.exists_cons_of_ne_nil hne
  have hfirst := h.tokens_ne_nil part (by rw [hparts]; exact List.mem_cons_self)
  rw [List.flatMap_cons]
  simp [hfirst]

/-- One part more in front, which reports nothing behind the token that follows it. -/
theorem cons {part : Stretch DesignUnit} (h : Accounted file parts ds)
    (hsorted : (part.tokens ++ (parts.flatMap Stretch.tokens ++ rest)).Pairwise Token.Before)
    (hunits : ∀ unit ∈ part.value, ∃ opener header body closing,
      part.tokens = opener :: (header ++ body.flatMap Stretch.tokens ++ closing) ∧
        Anatomy file unit opener header body closing)
    (hstray : part.value = none → IsStray part.tokens parts ∧
      (es ++ ds).filter (startsAt part.tokens) = strayReports file [] part.tokens)
    (hnext : ∀ run after, parts = ⟨run, none⟩ :: after →
      es.filter (startsAt run) = labelReports file part.tokens run)
    (hreach : ∀ d ∈ es, ∀ e ∈ (parts.flatMap Stretch.tokens ++ rest).head?,
      d.span.start ≤ e.start) :
    Accounted file (part :: parts) (es ++ ds) := by
  refine ⟨List.forall_mem_cons.mpr ⟨hunits, h.units⟩, fun before run after hparts => ?_⟩
  cases before with
  | nil =>
    obtain ⟨rfl, rfl⟩ := List.cons.inj hparts
    exact hstray rfl
  | cons first before =>
    obtain ⟨rfl, hlater⟩ := List.cons.inj hparts
    replace hlater : parts = before ++ ⟨run, none⟩ :: after := hlater
    obtain ⟨hrun, hds⟩ := h.runs before run after hlater
    refine ⟨hrun, ?_⟩
    rw [List.filter_append, hds, List.flatMap_cons]
    by_cases hempty : before = []
    · subst hempty
      rw [hnext run after hlater, strayReports, strayReports, List.flatMap_nil, List.append_nil]
      rfl
    · have hne := h.flatMap_ne_nil hlater hempty
      obtain ⟨e, us, hbetween⟩ := List.exists_cons_of_ne_nil hne
      have hes : es.filter (startsAt run) = [] := by
        apply filter_startsAt_eq_nil
        intro d hd t ht
        have hle := hreach d hd e (by rw [hlater, List.flatMap_append, hbetween]; rfl)
        rw [hlater, List.flatMap_append, hbetween, List.flatMap_cons] at hsorted
        have hpairs := (List.pairwise_append.mp (List.pairwise_append.mp hsorted).2.1).1
        have hless := (List.pairwise_append.mp hpairs).2.2 e List.mem_cons_self t
          (List.mem_append_left _ ht)
        have hstart := hless.start
        omega
      rw [hes, List.nil_append, strayReports_append hne]

/-- No stray run begins at the end of the text or where a unit does. -/
theorem not_stray (h : Accounted file parts ds)
    (hsorted : (parts.flatMap Stretch.tokens ++ rest).Pairwise Token.Before) (hrest : rest ≠ [])
    (hopen : headKind (parts.flatMap Stretch.tokens ++ rest) = .eof ∨
      (headKind (parts.flatMap Stretch.tokens ++ rest)).isUnitStart = true)
    (run : List Token) (after : List (Stretch DesignUnit)) : parts ≠ ⟨run, none⟩ :: after := by
  rintro rfl
  obtain ⟨hrun, -⟩ := h.runs [] run after rfl
  obtain ⟨t, us, hcons⟩ := List.exists_cons_of_ne_nil hrun.filled
  obtain ⟨e, r, rfl⟩ := List.exists_cons_of_ne_nil hrest
  rw [List.flatMap_cons] at hopen hsorted
  dsimp only at hopen hsorted
  rw [hcons] at hopen hsorted
  rcases hopen with hopen | hopen
  · have hbefore := (List.pairwise_append.mp hsorted).2.2 t List.mem_cons_self e List.mem_cons_self
    exact hbefore.inner hopen
  · have hclosed := hrun.closed t (by rw [hcons]; exact List.mem_cons_self)
    exact Bool.false_ne_true (hclosed.symm.trans hopen)

/-- A unit in front. -/
theorem consUnit (h : Accounted file parts ds) {unit : DesignUnit} {opener : Token}
    {header closing : List Token} {body : List (Stretch Item)}
    (hanatomy : Anatomy file unit opener header body closing)
    (hts : ts = opener :: (header ++ body.flatMap Stretch.tokens ++ closing))
    (hsorted : (ts ++ (parts.flatMap Stretch.tokens ++ rest)).Pairwise Token.Before)
    (hrest : rest ≠ [])
    (hopen : closing = [] → headKind (parts.flatMap Stretch.tokens ++ rest) = .eof ∨
      (headKind (parts.flatMap Stretch.tokens ++ rest)).isUnitStart = true)
    (hes : ∀ d ∈ es, ∀ e ∈ (closing ++ (parts.flatMap Stretch.tokens ++ rest)).head?,
      d.span.start ≤ e.start) :
    Accounted file (⟨ts, some unit⟩ :: parts)
      (es ++ labelReports file closing (parts.flatMap Stretch.tokens ++ rest) ++ ds) := by
  have hwithin : closing ≠ [] → ∀ d ∈ es, ∀ t ∈ parts.flatMap Stretch.tokens ++ rest,
      d.span.start < t.start := by
    intro hne d hd t ht
    obtain ⟨word, label, rfl⟩ := List.exists_cons_of_ne_nil hne
    have hword : word ∈ ts := by
      rw [hts]
      simp
    have hstart := ((List.pairwise_append.mp hsorted).2.2 word hword t ht).start
    have hle := hes d hd word rfl
    omega
  refine h.cons hsorted ?_ nofun ?_ ?_
  · rintro _ ⟨rfl⟩
    exact ⟨opener, header, body, closing, hts, hanatomy⟩
  · intro run after hparts
    have hne : closing ≠ [] := fun hnil =>
      h.not_stray (List.pairwise_append.mp hsorted).2.1 hrest (hopen hnil) run after hparts
    obtain ⟨hrun, -⟩ := h.runs [] run after hparts
    have hhead : (parts.flatMap Stretch.tokens ++ rest).head? = run.head? := by
      obtain ⟨t, us, hcons⟩ := List.exists_cons_of_ne_nil hrun.filled
      rw [hparts, List.flatMap_cons, List.append_assoc]
      dsimp only
      rw [hcons]
      rfl
    have hquiet : es.filter (startsAt run) = [] := by
      apply filter_startsAt_eq_nil
      intro d hd t ht
      have hmem : t ∈ parts.flatMap Stretch.tokens ++ rest := by
        rw [hparts, List.flatMap_cons]
        exact List.mem_append_left _ (List.mem_append_left _ ht)
      exact Nat.ne_of_lt (hwithin hne d hd t hmem)
    have hsame : labelReports file ts run =
        labelReports file closing (parts.flatMap Stretch.tokens ++ rest) := by
      obtain ⟨last, hlast⟩ := Option.isSome_iff_exists.mp (List.getLast?_isSome.mpr hne)
      rw [labelReports, labelReports, hhead, hts, ← List.cons_append, List.getLast?_append, hlast,
        Option.some_or]
    rw [List.filter_append, hquiet, List.nil_append, hsame, List.filter_eq_self]
    intro d hd
    obtain ⟨t, ht, hstart⟩ := start_of_mem_labelReports hd
    rw [hhead] at ht
    simp only [startsAt, List.any_eq_true, decide_eq_true_eq]
    exact ⟨t, List.mem_of_mem_head? ht, hstart⟩
  · intro d hd e he
    rcases List.mem_append.mp hd with hd | hd
    · by_cases hnil : closing = []
      · exact hes d hd e (by rwa [hnil])
      · exact Nat.le_of_lt (hwithin hnil d hd e (List.mem_of_mem_head? he))
    · obtain ⟨t, ht, hstart⟩ := start_of_mem_labelReports hd
      rw [hstart, Option.mem_unique ht he]

/-- A stray run in front. -/
theorem consStray (h : Accounted file parts ds) {first : Token} {us : List Token}
    (hsorted : (first :: us ++ (parts.flatMap Stretch.tokens ++ rest)).Pairwise Token.Before)
    (hrest : rest ≠ []) (hclosed : ∀ t ∈ first :: us, t.kind.isUnitStart = false)
    (hopen : headKind (parts.flatMap Stretch.tokens ++ rest) = .eof ∨
      (headKind (parts.flatMap Stretch.tokens ++ rest)).isUnitStart = true)
    (hds : ∀ d ∈ ds, ∀ e ∈ (parts.flatMap Stretch.tokens ++ rest).head?,
      e.start ≤ d.span.start) :
    Accounted file (⟨first :: us, none⟩ :: parts)
      ([SyntaxError.expectedUnit.diagnostic (first.span file)] ++ ds) := by
  have hpairs := List.pairwise_append.mp hsorted
  have hnext := h.not_stray hpairs.2.1 hrest hopen
  obtain ⟨e, r, hcons⟩ : ∃ e r, parts.flatMap Stretch.tokens ++ rest = e :: r :=
    List.exists_cons_of_ne_nil (by simp [hrest])
  have hbehind : ∀ t ∈ first :: us, t.start < e.start := fun t ht =>
    (hpairs.2.2 t ht e (by rw [hcons]; exact List.mem_cons_self)).start
  refine h.cons hsorted nofun (fun _ => ⟨⟨List.cons_ne_nil _ _, hclosed, ?_⟩, ?_⟩) ?_ ?_
  · intro part hpart
    obtain ⟨after, rfl⟩ := List.head?_eq_some_iff.mp hpart
    by_contra hvalue
    rw [Option.not_isSome_iff_eq_none] at hvalue
    exact hnext part.tokens after (by rw [← hvalue])
  · have hquiet : ds.filter (startsAt (first :: us)) = [] := by
      apply filter_startsAt_eq_nil
      intro d hd t ht
      have hle := hds d hd e (by rw [hcons]; rfl)
      have hless := hbehind t ht
      omega
    have hself : startsAt (first :: us) (SyntaxError.expectedUnit.diagnostic (first.span file)) =
        true := by simp [startsAt, SyntaxError.diagnostic, Token.span]
    rw [List.filter_append, hquiet, List.filter_cons, if_pos hself]
    rfl
  · exact fun run after hparts => absurd hparts (hnext run after)
  · intro d hd e' he'
    rw [hcons] at he'
    obtain rfl := Option.some.inj he'
    rw [List.mem_singleton.mp hd]
    exact Nat.le_of_lt (hbehind first List.mem_cons_self)

end Accounted

/-- What stands between units is reported at its first token and passed over. -/
private theorem between_run (hc : c.Stands all) (heof : c.current ≠ .eof)
    (hstop : c.current.isUnitStart = false) (s : Session) :
    ∃ first us c', c.Passes (first :: us) c' ∧
      (∀ t ∈ first :: us, t.kind.isUnitStart = false) ∧
      (headKind c'.rest = .eof ∨ (headKind c'.rest).isUnitStart = true) ∧
      ((report .expectedUnit).task c).run s = (((), { c with errors := c.errors + 1 }),
        s.emit (SyntaxError.expectedUnit.diagnostic (first.span c.file))) ∧
      ((report .expectedUnit).task c).emitted s =
        [SyntaxError.expectedUnit.diagnostic (first.span c.file)] ∧
      c' = { c with errors := c.errors + 1 }.skipUntil Kind.isUnitStart := by
  obtain ⟨first, r, hrest⟩ := hc.exists_next
  have hstay : c.Passes [] { c with errors := c.errors + 1 } := .stay rfl rfl rfl rfl
  have hcurrent : c.current = first.kind := current_of_rest hrest
  rw [hcurrent] at heof hstop
  have htake : c.rest.takeWhile (fun t => t.kind ≠ .eof && !t.kind.isUnitStart) =
      first :: r.takeWhile fun t => t.kind ≠ .eof && !t.kind.isUnitStart := by
    simp [hrest, heof, hstop]
  have hpasses := hstay.trans
    (Cursor.Passes.skipUntil { c with errors := c.errors + 1 } Kind.isUnitStart)
  rw [List.nil_append, htake] at hpasses
  have hspan : c.currentSpan = first.span c.file := currentSpan_of_rest hrest rfl
  refine ⟨first, _, _, hpasses, List.forall_mem_cons.mpr ⟨hstop, fun t ht => ?_⟩,
    headKind_skipUntil (hstay.stands hc) Kind.isUnitStart, ?_, ?_, rfl⟩
  · have hskipped := List.mem_takeWhile_imp ht
    simp only [Bool.and_eq_true, Bool.not_eq_true'] at hskipped
    exact hskipped.2
  · rw [← hspan]
    rfl
  · rw [← hspan]
    rfl

/-- What is reported from the next token on lies behind the tokens before that one. -/
theorem start_le_of_behind {first : Token} {us r : List Token} {ds : List Diagnostic}
    (hsorted : (first :: us ++ r).Pairwise Token.Before) (hr : r ≠ [])
    (hds : ∀ d ∈ ds, ∀ e ∈ r.head?, e.start ≤ d.span.start) :
    ∀ d ∈ ds, first.start ≤ d.span.start := by
  obtain ⟨e, later, rfl⟩ := List.exists_cons_of_ne_nil hr
  intro d hd
  have hless :=
    (List.pairwise_append.mp hsorted).2.2 first List.mem_cons_self e List.mem_cons_self
  exact Nat.le_trans (Nat.le_of_lt hless.start) (hds d hd e rfl)

/-- The units and stray runs that follow, up to the end. Nothing is reported before they begin. -/
theorem accounted_unitsWithin (hall : all.Pairwise Token.Before) (bound : Nat)
    (hcursors : (Frame.ofFile file).Cursors c c) (hc : c.Stands all)
    (hbound : c.rest.length ≤ bound) (s : Session) :
    ∃ units c' t, ∃ parts : List (Stretch DesignUnit),
      ((unitsWithin bound).task c).run s = ((units, c'), t) ∧
      c.Passes (parts.flatMap Stretch.tokens) c' ∧ c'.current = .eof ∧
      units = parts.filterMap Stretch.value ∧
      Accounted c.file parts (((unitsWithin bound).task c).emitted s) ∧
      (∀ d ∈ ((unitsWithin bound).task c).emitted s, ∀ e ∈ c.rest.head?, e.start ≤ d.span.start) ∧
      (Frame.ofFile file).Cursors c' c' := by
  induction bound generalizing c s with
  | zero =>
    obtain ⟨w, ts, hrest⟩ := hc.exists_next
    rw [hrest] at hbound
    cases hbound
  | succ bound ih =>
    have hsorted := hall.sublist hc.ahead.sublist
    rw [unitsWithin, run_bind Reads.current.run, emitted_bind Reads.current.run,
      Reads.current.quiet, List.nil_append]
    split
    next heof =>
      exact ⟨[], c, s, [], rfl, .stay rfl rfl rfl rfl, heof, rfl, .nil _, List.forall_mem_nil _,
        hcursors⟩
    next kind hkind =>
      obtain ⟨unit, d, t, opener, header, closing, es, body, hrun, hpasses, hanatomy, hopen, hes,
        hreach, hbegin, hcursors'⟩ := accounted_designUnit hall hcursors hc hkind s
      have hshorter : d.rest.length ≤ bound := by
        rw [hpasses.rest, List.length_append, List.length_cons] at hbound
        omega
      have hstands := hpasses.stands hc
      obtain ⟨units, c', u, parts, hrest, hpasses', hend, hunits, haccounted, hlater, hcursors''⟩ :=
        ih hcursors' hstands hshorter t
      have hne : c'.rest ≠ [] := (hpasses'.stands hstands).rest_ne_nil
      rw [hpasses.rest] at hsorted
      have hbehind := start_le_of_behind hsorted hstands.rest_ne_nil hlater
      rw [hpasses'.rest] at hsorted hopen hes hreach
      rw [hpasses.file] at haccounted
      refine ⟨unit :: units, c', u, ⟨_, some unit⟩ :: parts, ?_, hpasses.trans hpasses', hend, ?_,
        ?_, ?_, hcursors''⟩
      · rw [run_bind hrun, run_bind hrest]
        rfl
      · rw [hunits]
        rfl
      · rw [emitted_bind hrun, emitted_bind hrest, hes]
        have hcons := haccounted.consUnit hanatomy rfl hsorted hne hopen hreach
        rwa [← List.append_nil (Task.emitted _ t)] at hcons
      · rw [emitted_bind hrun, emitted_bind hrest, hpasses.rest]
        intro d' hd' e he
        obtain rfl := Option.some.inj he
        rcases List.mem_append.mp hd' with hd' | hd'
        · exact hbegin d' hd'
        · refine hbehind d' ?_
          rcases List.mem_append.mp hd' with hd' | hd'
          · exact hd'
          · cases hd'
    next hother hunit =>
      obtain ⟨first, us, d, hpasses, hclosed, hopen, hreport, htold, hd⟩ :=
        between_run hc hother (isUnitStart_of_ne hunit) s
      have hshorter : d.rest.length ≤ bound := by
        rw [hpasses.rest, List.length_append, List.length_cons] at hbound
        omega
      have hstands := hpasses.stands hc
      have hafter : (Frame.ofFile file).Cursors d d := by
        rw [hd]
        exact (hcursors.reported trivial).skipUntil Kind.isUnitStart
      obtain ⟨units, c', u, parts, hrest, hpasses', hend, hunits, haccounted, hlater, hcursors'⟩ :=
        ih hafter hstands hshorter
          (s.emit (SyntaxError.expectedUnit.diagnostic (first.span c.file)))
      have hne : c'.rest ≠ [] := (hpasses'.stands hstands).rest_ne_nil
      rw [hpasses.rest] at hsorted
      have hbehind := start_le_of_behind hsorted hstands.rest_ne_nil hlater
      rw [hpasses'.rest] at hsorted hopen hlater
      rw [hpasses.file] at haccounted
      have hemitted : ((report .expectedUnit >>= fun _ => skipUntil Kind.isUnitStart >>= fun _ =>
          unitsWithin bound : ParserM _).task c).emitted s =
          [SyntaxError.expectedUnit.diagnostic (first.span c.file)] ++
          ((unitsWithin bound).task d).emitted
            (s.emit (SyntaxError.expectedUnit.diagnostic (first.span c.file))) := by
        rw [emitted_bind hreport, emitted_bind (skipUntil_run _ _ _), htold, ← hd]
        rfl
      refine ⟨units, c', u, ⟨first :: us, none⟩ :: parts, ?_, hpasses.trans hpasses', hend, hunits,
        ?_, ?_, hcursors'⟩
      · rw [run_bind hreport, run_bind (skipUntil_run _ _ _), ← hd, hrest]
      · rw [hemitted]
        exact haccounted.consStray hsorted hne hclosed hopen hlater
      · rw [hemitted, hpasses.rest]
        intro d' hd' e he
        obtain rfl := Option.some.inj he
        rcases List.mem_cons.mp hd' with rfl | hd'
        · exact Nat.le_refl _
        · exact hbehind d' hd'

/-- Nothing stands behind the end. -/
theorem rest_atEnd (hall : all.Pairwise Token.Before) (hc : c.Stands all)
    (heof : c.current = .eof) : ∃ e, e.kind = .eof ∧ c.rest = [e] := by
  obtain ⟨e, r, hrest⟩ := hc.exists_next
  have hend : e.kind = .eof := (current_of_rest hrest).symm.trans heof
  have hsorted := hall.sublist hc.ahead.sublist
  rw [hrest, List.pairwise_cons] at hsorted
  cases r with
  | nil => exact ⟨e, hend, hrest⟩
  | cons w r => exact absurd hend (hsorted.1 w List.mem_cons_self).inner

/-- Parsing a text gives its units; every token belongs to one of them or to a stray run. -/
theorem accounted_sourceText (hall : all.Pairwise Token.Before)
    (hcursors : (Frame.ofFile file).Cursors c c) (hc : c.Stands all) (s : Session) :
    ∃ text c' t e, ∃ parts : List (Stretch DesignUnit),
      (sourceText.task c).run s = ((text, c'), t) ∧ c'.misuse = none ∧ e.kind = .eof ∧
      c.rest = parts.flatMap Stretch.tokens ++ [e] ∧ text.units = parts.filterMap Stretch.value ∧
      Accounted c.file parts ((sourceText.task c).emitted s) := by
  obtain ⟨units, d, t, parts, hunits, hpasses, hend, hvalues, haccounted, -, -⟩ :=
    accounted_unitsWithin hall c.rest.length hcursors hc (Nat.le_refl _) s
  obtain ⟨e, heof, he⟩ := rest_atEnd hall (hpasses.stands hc) hend
  obtain ⟨span, c', hrun, hemitted⟩ := sourceText_run hunits
  obtain ⟨_, _, _, hrun', hmisuse, -⟩ := account_sourceText hall hcursors hc s
  have hsame := hrun.symm.trans hrun'
  cases hsame
  refine ⟨⟨units, span⟩, c', t, e, parts, hrun, hmisuse, heof, ?_, hvalues, ?_⟩
  · rw [hpasses.rest, he]
  · rwa [hemitted]

/-- The syntax errors that parsing a text reports. -/
def syntaxErrors (file : Nat) (content : String) (s : Session) : List Diagnostic :=
  ((parsingText sourceText file content).run.emitted s).filter (·.code = SyntaxError.code)

/-- Every token of a text is accounted for. The text falls into units and stray runs between them.
A token lies in the span of its unit alone, or of none if it is stray. In a unit, the tokens between
the header and the closing word lie in the span of one item each, unless they are semicolons that
stand alone. At a stray run, the syntax errors are one at its first token, after one about a missing
name there just if the token before is the colon of a label. -/
theorem tokens_accounted (file : Nat) (content : String) (s : Session) :
    ∃ text t e, ∃ parts : List (Stretch DesignUnit),
      (parsingText sourceText file content).run.run s = (.ok text, t) ∧
      (lex file content).1 = parts.flatMap Stretch.tokens ++ [e] ∧ e.kind = .eof ∧
      text.units = parts.filterMap Stretch.value ∧
      (∀ part ∈ parts, ∀ u ∈ part.tokens,
        text.units.filter (fun unit => u.liesIn unit.span) = part.value.toList) ∧
      (∀ part ∈ parts, ∀ unit ∈ part.value, ∃ opener header body closing,
        part.tokens = opener :: (header ++ body.flatMap Stretch.tokens ++ closing) ∧
          Anatomy file unit opener header body closing ∧ ItemsPlaced unit body) ∧
      ∀ before run after, parts = before ++ ⟨run, none⟩ :: after →
        IsStray run after ∧ (syntaxErrors file content s).filter (startsAt run) =
          strayReports file (before.flatMap Stretch.tokens) run := by
  obtain ⟨text, c, t, e, parts, hrun, hmisuse, heof, htokens, hunits, haccounted⟩ :=
    accounted_sourceText (pairwise_lex file content) (cursors_ofFile file (lex file content).1)
      (stands_lex file content) ((Task.emitAll (lex file content).2).run s).2
  obtain ⟨hparse, hemitted⟩ := parsingText_run hrun hmisuse
  replace htokens : (lex file content).1 = parts.flatMap Stretch.tokens ++ [e] := htokens
  have hplaced : Placed (parts.flatMap Stretch.tokens) := by
    have hlex := placed_lex file content
    rwa [htokens, List.dropLast_concat] at hlex
  have hover : ∀ part ∈ parts, ∀ unit ∈ part.value, unit.span.Over file part.tokens := by
    intro part hpart unit hunit
    obtain ⟨opener, header, body, closing, hpieces, hanatomy⟩ :=
      haccounted.units part hpart unit hunit
    rw [hpieces]
    exact hanatomy.span
  have herrors : syntaxErrors file content s =
      (sourceText.task { file := file, rest := (lex file content).1 }).emitted
        ((Task.emitAll (lex file content).2).run s).2 := by
    rw [syntaxErrors, hemitted, List.filter_append, List.filter_eq_nil_iff.mpr, List.nil_append,
      List.filter_eq_self]
    · intro d hd
      exact decide_eq_true (code_of_mem_task hd)
    · intro d hd
      rw [code_of_mem_lex hd]
      decide
  refine ⟨text, t, e, parts, hparse, htokens, heof, hunits, ?_, ?_, ?_⟩
  · intro part hpart u hu
    rw [hunits]
    exact filter_liesIn hplaced hover hpart hu
  · intro part hpart unit hunit
    obtain ⟨opener, header, body, closing, hpieces, hanatomy⟩ :=
      haccounted.units part hpart unit hunit
    refine ⟨opener, header, body, closing, hpieces, hanatomy, hanatomy.itemsPlaced ?_⟩
    obtain ⟨before, after, rfl⟩ := List.append_of_mem hpart
    rw [List.flatMap_append, List.flatMap_cons, placed_append, placed_append] at hplaced
    rw [← hpieces]
    exact hplaced.2.1.1
  · rw [herrors]
    exact haccounted.runs

/-- A token that lies in one of these spans alone, or in a run of tokens outside of them all whose
first was reported just once. -/
def AccountedOnce (file : Nat) (tokens : List Token) (spans : List Span)
    (errors : List Diagnostic) (t : Token) : Prop :=
  (spans.filter t.liesIn).length = 1 ∨
    ∃ first us, first :: us <:+: tokens ∧ t ∈ first :: us ∧
      (∀ u ∈ first :: us, spans.filter u.liesIn = []) ∧
      (errors.filter fun d => d.span = first.span file).length = 1

/-- A stray semicolon behind the colon of a label is reported twice. -/
theorem stray_reported_twice :
    ¬ ∃ text t, (parsingText sourceText 0 "module m; endmodule : ;").run.run {} = (.ok text, t) ∧
      ∀ u ∈ (lex 0 "module m; endmodule : ;").1.dropLast,
        AccountedOnce 0 (lex 0 "module m; endmodule : ;").1.dropLast
          (text.units.map DesignUnit.span) (syntaxErrors 0 "module m; endmodule : ;" {}) u := by
  rintro ⟨text, t, hrun, haccounted⟩
  have hstray : ⟨.semicolon, ";", 22, 23⟩ ∈ (lex 0 "module m; endmodule : ;").1.dropLast := by
    decide +kernel
  have hunits : ((parsingText sourceText 0 "module m; endmodule : ;").run.run {}).1.toOption.map
      (fun text => text.units.map DesignUnit.span) = some [⟨0, 0, 21⟩] := by decide +kernel
  rw [hrun] at hunits
  have hspans : text.units.map DesignUnit.span = [⟨0, 0, 21⟩] := Option.some.inj hunits
  rw [hspans] at haccounted
  -- All other tokens lie in the module, so the run can only be the semicolon.
  have htwice : ∀ u ∈ (lex 0 "module m; endmodule : ;").1.dropLast,
      [(⟨0, 0, 21⟩ : Span)].filter u.liesIn = [] →
        ((syntaxErrors 0 "module m; endmodule : ;" {}).filter fun d => d.span = u.span 0).length ≠
          1 := by decide +kernel
  rcases haccounted _ hstray with hone | ⟨first, us, hrun, -, houtside, hone⟩
  · revert hone
    decide
  · exact htwice first (hrun.mem List.mem_cons_self) (houtside first List.mem_cons_self) hone

end Parser

end Netlist
