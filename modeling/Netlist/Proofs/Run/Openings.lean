import Netlist.Proofs.Parser.Account
import Netlist.Proofs.Run.Alone

/-!
The units of a file and the words that open them. Each unit begins at such a word of its kind, in
order, and a word is left out just if it was reported as no expression. Broken source does no more
than that: recovery stops before the next unit.
-/
namespace Netlist

open List (Forall₂)

/-- A word that opens a unit, and the unit that begins there. -/
structure Token.Opens (t : Token) (unit : Syntax.DesignUnit) : Prop where
  kind : t.kind = .unitStart unit.kind
  start : unit.span.start = t.start

namespace Parser

variable {all : List Token} (hall : all.Pairwise Token.Before) {file : Nat} {c : Cursor}

theorem spanFrom_run {t : Token} (hprev : c.prev = some t) (hconsumed : c.consumed ≠ 0)
    (start : Span) (hfile : start.file = c.file) (s : Session) :
    ((spanFrom start).task c).run s = ((start.cover (t.span c.file), c), s) ∧
      ((spanFrom start).task c).emitted s = [] := by
  have hspan : c.prevSpan = .ok (t.span c.file) := by
    simp [Cursor.prevSpan, Cursor.prevToken, hprev, hconsumed, Except.map]
  have hrun : (prevSpan.task c).run s = ((t.span c.file, c), s) := by
    show ((demand c.currentSpan c.prevSpan).task c).run s = _
    rw [hspan]
    rfl
  have hquiet : (prevSpan.task c).emitted s = [] := by
    show ((demand c.currentSpan c.prevSpan).task c).emitted s = _
    rw [hspan]
    rfl
  have hmerge : start.merge (t.span c.file) = .ok (start.cover (t.span c.file)) := if_pos hfile
  rw [spanFrom, run_bind hrun, emitted_bind hrun, hquiet, merge, hmerge]
  exact ⟨rfl, rfl⟩

/-- A unit is its opening word and its body, and its span runs to the token consumed last. -/
theorem designUnit_run {kind : UnitKind} {o last : Token} {ts : List Token}
    (hrest : c.rest = o :: ts) (hopener : o.kind = .unitStart kind) {name : Syntax.Identifier} {items : List Syntax.Item}
    {label : Option Syntax.Identifier} {c' : Cursor} {s t : Session}
    (hbody : ((unitBody kind).task c.advance).run s = (((name, items, label), c'), t))
    (hfile : c'.file = c.file) (hprev : c'.prev = some last) (hconsumed : c'.consumed ≠ 0) :
    ((designUnit kind).task c).run s =
        ((⟨kind, name, items, label, (o.span c.file).cover (last.span c.file)⟩, c'), t) ∧
      ((designUnit kind).task c).emitted s = ((unitBody kind).task c.advance).emitted s := by
  have hkind : c.current = .unitStart kind := by
    rw [← hopener]
    simp [Cursor.current, Cursor.kindAt, hrest]
  have hstart : (currentSpan.task c).run s = ((o.span c.file, c), s) := by
    have hspan : c.currentSpan = o.span c.file := by simp [Cursor.currentSpan, hrest]
    rw [← hspan]
    rfl
  obtain ⟨htake, hquiet⟩ := take_run hkind s
  obtain ⟨hspan, hsilent⟩ := spanFrom_run hprev hconsumed (o.span c.file) hfile.symm t
  rw [designUnit, run_bind hstart, run_bind htake, run_bind hbody, run_bind hspan,
    emitted_bind hstart, emitted_bind htake, hquiet, emitted_bind hbody, emitted_bind hspan,
    hsilent, hfile]
  exact ⟨rfl, List.append_nil _⟩

/-- Skipping consumes the next token if it may. -/
theorem length_skipUntil {stop : Kind → Bool} (heof : c.current ≠ .eof)
    (hstop : stop c.current = false) (hrest : c.rest ≠ []) :
    (c.skipUntil stop).rest.length < c.rest.length := by
  obtain ⟨t, ts, hcons⟩ := List.exists_cons_of_ne_nil hrest
  have hcurrent : c.current = t.kind := by simp [Cursor.current, Cursor.kindAt, hcons]
  rw [hcurrent] at heof hstop
  simp only [Cursor.skipUntil, hcons, List.dropWhile_cons, heof, hstop, ne_eq, not_false_eq_true,
    decide_true, Bool.not_false, Bool.and_self, if_true, List.length_cons]
  exact Nat.lt_succ_of_le (List.length_dropWhile_le _ _)

/-- The opening word of a unit is kept. -/
private theorem account_opener {o : Token} {ts : List Token} (hrest : c.rest = o :: ts)
    (hunit : o.kind.isUnitStart = true) : Account all c c.advance [] [o] [o] := by
  have heof : o.kind ≠ .eof := by
    intro heof
    rw [heof] at hunit
    cases hunit
  simp only [Cursor.advance, hrest, if_neg heof]
  exact ⟨rfl, hrest, rfl, rfl, by simpa using heof, by simp [hunit, isReported],
    fun _ _ _ h => absurd h Bool.false_ne_true⟩

include hall

/-- The last token of a unit does not stand before its first. -/
private theorem exists_last {c' : Cursor} {ds : List Diagnostic} {o : Token}
    {taken kept : List Token} (h : Account all c c' ds (o :: taken) kept) (hc : c.Stands all) :
    ∃ last, c'.prev = some last ∧ o.start ≤ last.start := by
  have hrest := hall.sublist hc.ahead.sublist
  rw [h.rest, List.cons_append, List.pairwise_cons] at hrest
  obtain ⟨last, hlast⟩ : ∃ last, (o :: taken).getLast? = some last :=
    Option.isSome_iff_exists.mp (List.getLast?_isSome.mpr (List.cons_ne_nil o taken))
  refine ⟨last, by rw [h.prev, hlast]; rfl, ?_⟩
  rcases List.mem_cons.mp (List.mem_of_getLast? hlast) with rfl | hmem
  · exact Nat.le_refl _
  · exact Nat.le_of_lt (hrest.1 last (List.mem_append_left _ hmem)).start

/-- A unit begins at its opening word and keeps no other. -/
theorem account_designUnit {kind : UnitKind} (hcursors : (Frame.ofFile file).Cursors c c)
    (hc : c.Stands all) (hkind : c.current = .unitStart kind) (s : Session) :
    ∃ unit c' t o taken, ((designUnit kind).task c).run s = ((unit, c'), t) ∧ o.Opens unit ∧
      Account all c c' (((designUnit kind).task c).emitted s) (o :: taken) [o] ∧
      (Frame.ofFile file).Cursors c' c' := by
  obtain ⟨o, ts, hrest⟩ := hc.exists_next
  have hopener : o.kind = .unitStart kind := by
    rw [← hkind]
    simp [Cursor.current, Cursor.kindAt, hrest]
  have hfirst : Account all c c.advance [] [o] [o] := account_opener hrest (by rw [hopener]; rfl)
  obtain ⟨⟨name, items, label⟩, c', t, taken, hbody, hsecond, hcursors'⟩ :=
    (mirror_unitBody kind).account_self hall hcursors.advance (hfirst.stands hc) s
  have hwhole := hfirst.trans hall hsecond hc
  obtain ⟨last, hprev, hlast⟩ := exists_last hall hwhole hc
  have hconsumed : c'.consumed ≠ 0 := by
    rw [hwhole.consumed]
    simp
  obtain ⟨hrun, hemitted⟩ := designUnit_run hrest hopener hbody hwhole.file hprev hconsumed
  refine ⟨_, c', t, o, taken, hrun, ⟨hopener, Nat.min_eq_left hlast⟩, ?_, hcursors'⟩
  rw [hemitted]
  exact hwhole

/-- Nothing behind the end opens a unit. -/
private theorem isUnitStart_atEnd (hc : c.Stands all) (heof : c.current = .eof) :
    ∀ t ∈ c.rest, t.kind.isUnitStart = false := by
  obtain ⟨w, ts, hrest⟩ := hc.exists_next
  have hw : w.kind = .eof := by
    rw [← heof]
    simp [Cursor.current, Cursor.kindAt, hrest]
  have hlast := hall.sublist hc.ahead.sublist
  rw [hrest, List.pairwise_cons] at hlast
  rw [hrest]
  intro t ht
  rcases List.mem_cons.mp ht with rfl | ht
  · rw [hw]
    rfl
  · exact absurd hw (hlast.1 t ht).inner

/-- What stands between units is reported and passed over. -/
private theorem account_between (hc : c.Stands all) (heof : c.current ≠ .eof)
    (hstop : c.current.isUnitStart = false) :
    ∃ passed, Account all c ({ c with errors := c.errors + 1 }.skipUntil Kind.isUnitStart)
        [SyntaxError.expectedUnit.diagnostic c.currentSpan] passed [] ∧
      ({ c with errors := c.errors + 1 }.skipUntil Kind.isUnitStart).rest.length <
        c.rest.length := by
  have hfirst : Account all c { c with errors := c.errors + 1 }
      [SyntaxError.expectedUnit.diagnostic c.currentSpan] [] [] :=
    Account.report all c .expectedUnit c.currentSpan SyntaxError.noConfusion
  obtain ⟨passed, hsecond⟩ :=
    Account.skipUntil all { c with errors := c.errors + 1 } Kind.isUnitStart fun _ h => h
  obtain ⟨w, ts, hrest⟩ := hc.exists_next
  exact ⟨passed, hfirst.trans hall hsecond hc, length_skipUntil heof hstop (by simp [hrest])⟩

/-- The units that follow begin at the words that are kept, and nothing is left but the end. -/
theorem account_unitsWithin (bound : Nat) (hcursors : (Frame.ofFile file).Cursors c c)
    (hc : c.Stands all) (hbound : c.rest.length ≤ bound) (s : Session) :
    ∃ units c' t taken kept, ((unitsWithin bound).task c).run s = ((units, c'), t) ∧
      Account all c c' (((unitsWithin bound).task c).emitted s) taken kept ∧
      Forall₂ Token.Opens kept units ∧ (∀ t ∈ c'.rest, t.kind.isUnitStart = false) ∧
      (Frame.ofFile file).Cursors c' c' := by
  induction bound generalizing c s with
  | zero =>
    obtain ⟨w, ts, hrest⟩ := hc.exists_next
    rw [hrest] at hbound
    cases hbound
  | succ bound ih =>
    have hcurrent : (current.task c).run s = ((c.current, c), s) := rfl
    have hquiet : (current.task c).emitted s = [] := rfl
    rw [unitsWithin, run_bind hcurrent, emitted_bind hcurrent, hquiet, List.nil_append]
    split
    next heof =>
      exact ⟨[], c, s, [], [], rfl, .refl all c, .nil, isUnitStart_atEnd hall hc heof, hcursors⟩
    next kind hkind =>
      obtain ⟨unit, c', t, o, taken, hrun, hopens, haccount, hcursors'⟩ :=
        account_designUnit hall hcursors hc hkind s
      have hshorter : c'.rest.length ≤ bound := by
        rw [haccount.rest] at hbound
        simp only [List.length_append, List.length_cons] at hbound
        omega
      obtain ⟨units, c'', u, taken', kept, hrest, haccount', hunits, hnone, hcursors''⟩ :=
        ih hcursors' (haccount.stands hc) hshorter t
      refine ⟨unit :: units, c'', u, o :: taken ++ taken', o :: kept, ?_, ?_,
        .cons hopens hunits, hnone, hcursors''⟩
      · rw [run_bind hrun, run_bind hrest]
        rfl
      · rw [emitted_bind hrun, emitted_bind hrest]
        have hwhole := haccount.trans hall haccount' hc
        rwa [← List.append_nil (Task.emitted _ t)] at hwhole
    next hother hunit =>
      have hreport := report_run .expectedUnit c s
      obtain ⟨passed, hbetween, hshorter⟩ :=
        account_between hall hc hother (isUnitStart_of_ne hunit)
      obtain ⟨units, c', u, taken, kept, hrest, haccount, hunits, hnone, hcursors'⟩ :=
        ih ((hcursors.reported trivial).skipUntil Kind.isUnitStart) (hbetween.stands hc) (by omega)
          (s.emit (SyntaxError.expectedUnit.diagnostic c.currentSpan))
      refine ⟨units, c', u, passed ++ taken, kept, ?_, ?_, hunits, hnone, hcursors'⟩
      · rw [run_bind hreport, run_bind (skipUntil_run _ _ _), hrest]
      · rw [emitted_bind hreport, emitted_bind (skipUntil_run _ _ _)]
        exact hbetween.trans hall haccount hc

/-- The units of a file begin at the words that are kept, and these are all that were not
reported. -/
theorem account_sourceText (hcursors : (Frame.ofFile file).Cursors c c) (hc : c.Stands all)
    (s : Session) :
    ∃ text c' t, (sourceText.task c).run s = ((text, c'), t) ∧ c'.misuse = none ∧
      Forall₂ Token.Opens (c.rest.filter fun t => t.kind.isUnitStart &&
        !isReported c.file ((sourceText.task c).emitted s) t) text.units := by
  have hstart : (currentSpan.task c).run s = ((c.currentSpan, c), s) := rfl
  have hlook : (look.task c).run s = ((c, c), s) := rfl
  have hremaining : (remaining.task c).run s = ((c.rest.length, c), s) := rfl
  obtain ⟨units, c', t, taken, kept, hrun, hfirst, hunits, hnone, hcursors'⟩ :=
    account_unitsWithin hall c.rest.length hcursors hc (Nat.le_refl _) s
  obtain ⟨span, c'', u, taken', hspan, hsecond, hcursors''⟩ :=
    (mirror_spanSince hcursors.currentSpan c.consumed).account_self hall hcursors'
      (hfirst.stands hc) t
  have hwhole := hfirst.trans hall hsecond hc
  refine ⟨⟨units, span⟩, c'', u, ?_, hcursors''.misuse, ?_⟩
  · rw [sourceText, run_bind hstart, run_bind hlook, run_bind hremaining, run_bind hrun,
      run_bind hspan]
    rfl
  · have hemitted : (sourceText.task c).emitted s =
        ((unitsWithin c.rest.length).task c).emitted s ++
        ((spanSince c.currentSpan c.consumed).task c').emitted t := by
      rw [sourceText, emitted_bind hstart, emitted_bind hlook, emitted_bind hremaining,
        emitted_bind hrun, emitted_bind hspan]
      exact congrArg (_ ++ ·) (List.append_nil _)
    have hrest : c''.rest.filter (fun t => t.kind.isUnitStart &&
        !isReported c.file ((sourceText.task c).emitted s) t) = [] := by
      apply List.filter_eq_nil_iff.mpr
      intro w hw
      rw [hnone w (by rw [hsecond.rest]; exact List.mem_append_right _ hw)]
      simp
    rw [hwhole.rest, List.filter_append, hrest, List.append_nil, hemitted, ← hwhole.kept,
      List.append_nil]
    exact hunits

omit hall

/-- No problem of a lexeme is the report of a missing expression. -/
theorem isReported_lex (file : Nat) (content : String) (t : Token) :
    isReported file (lex file content).2 t = false := by
  rw [isReported, List.any_eq_false]
  intro d hd
  simp [code_of_mem_lex hd, Problem.code, SyntaxError.code]

theorem stands_lex (file : Nat) (content : String) :
    Cursor.Stands (lex file content).1 { file := file, rest := (lex file content).1 } where
  ahead := List.suffix_refl _
  ends := ⟨Token.endAt (Text.byteLength content.toList), by simp [lex_tokens], rfl⟩

theorem cursors_ofFile (file : Nat) (tokens : List Token) :
    (Frame.ofFile file).Cursors
      { file := file, rest := tokens } { file := file, rest := tokens } := by
  have hsame (t : Token) : (Frame.ofFile file).Tokens t t :=
    ⟨rfl, rfl, ⟨rfl, rfl⟩, trivial, fun _ => trivial⟩
  exact .self ⟨fun _ => rfl, rfl⟩ rfl rfl rfl (fun _ => trivial) (fun t _ => hsame t)
    (fun t _ => hsame t) fun _ _ => ⟨rfl, rfl⟩

/-- The words of a text that open units. -/
def openings (file : Nat) (content : String) : List Token :=
  (lex file content).1.filter fun t => t.kind.isUnitStart

/-- However broken a text is, its units begin at the words that open units, one for each in order,
except for words reported as no expression. So all of them begin a unit just if none is reported. -/
theorem units_openings (file : Nat) (content : String) (s : Session) :
    ∃ text t, (parsingText sourceText file content).run.run s = (.ok text, t) ∧
      Forall₂ Token.Opens ((openings file content).filter fun o =>
        !isReported file ((parsingText sourceText file content).run.emitted s) o) text.units ∧
      (Forall₂ Token.Opens (openings file content) text.units ↔
        ∀ o ∈ openings file content,
          isReported file ((parsingText sourceText file content).run.emitted s) o = false) := by
  obtain ⟨text, c, t, hrun, hmisuse, hopens⟩ :=
    account_sourceText (pairwise_lex file content) (cursors_ofFile file (lex file content).1)
      (stands_lex file content) ((Task.emitAll (lex file content).2).run s).2
  obtain ⟨hparse, hemitted⟩ := parsingText_run hrun hmisuse
  have hsame (o : Token) :
      isReported file ((parsingText sourceText file content).run.emitted s) o =
        isReported file ((sourceText.task { file := file, rest := (lex file content).1 }).emitted
          ((Task.emitAll (lex file content).2).run s).2) o := by
    rw [hemitted, isReported_append, isReported_lex, Bool.false_or]
  have hunits : Forall₂ Token.Opens ((openings file content).filter fun o =>
      !isReported file ((parsingText sourceText file content).run.emitted s) o) text.units := by
    rw [openings, List.filter_filter]
    simp only [hsame, Bool.and_comm (!_)]
    exact hopens
  refine ⟨text, t, hparse, hunits, fun hfull => ?_, fun hnone => ?_⟩
  · -- A word that is left out would make the list of units too short.
    have hlength := hunits.length_eq.trans hfull.length_eq.symm
    rw [List.length_filter_eq_length_iff] at hlength
    intro o ho
    simpa using hlength o ho
  · rwa [List.filter_eq_self.mpr fun o ho => by rw [hnone o ho]; rfl] at hunits

/-- An unclosed list of ports takes the next unit with it. -/
theorem opening_swallowed :
    ¬ ∃ text t, (parsingText sourceText 0 "module a; foo u( module b; endmodule").run.run {} =
        (.ok text, t) ∧
      Forall₂ Token.Opens (openings 0 "module a; foo u( module b; endmodule") text.units := by
  rintro ⟨text, t, hrun, hopens⟩
  have hwords : (openings 0 "module a; foo u( module b; endmodule").length = 2 := by
    decide +kernel
  have hunits : ((parsingText sourceText 0 "module a; foo u( module b; endmodule").run.run
      {}).1.toOption.map (fun text => text.units.length) = some 1 := by decide +kernel
  rw [hrun] at hunits
  have hone : text.units.length = 1 := Option.some.inj hunits
  have hlength := hopens.length_eq
  omega

end Parser

end Netlist
