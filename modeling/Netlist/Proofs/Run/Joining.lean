import Netlist.Proofs.Parser.Joining
import Netlist.Proofs.Run.Accounted
import Netlist.Proofs.Run.Placement
import Netlist.Proofs.Run.Statements

/-!
Texts one behind the other. Two texts that are translated without errors give, with a newline
between them, the modules of the first and then those of the second, moved back by the length of the
first. The first text must leave nothing open: no attribute, since the lexer counts the attribute
brackets over the whole text, and none of the brackets that the search for ports follows, since
that search does not stop at the end of a unit.
-/
namespace Netlist

open List (Forall₂)
open Lowering (Context NoticeLevel)
open Syntax (DesignUnit)

/-- A text that leaves no attribute open, and no bracket that the search for ports follows. -/
structure Closed (content : String) : Prop where
  attributes : openAttributes (lex 0 content).1.dropLast = 0
  brackets : Parser.Enclosed (lex 0 content).1.dropLast

/-- Spans of one text and the same spans of a text in which it stands `n` bytes farther back. -/
def Placement.shifted (n : Nat) : Placement where
  span s s' := s.file = 0 ∧ s' = s.shift n
  span_file := by
    rintro s _ ⟨hfile, rfl⟩
    exact ⟨hfile, hfile⟩
  span_cover := by
    rintro a _ b _ ⟨hfile, rfl⟩ ⟨-, rfl⟩
    refine ⟨hfile, ?_⟩
    simp only [Span.cover, Span.shift, Nat.add_min_add_right, Nat.add_max_add_right]
  span_atStart := by
    rintro s _ ⟨hfile, rfl⟩
    exact ⟨hfile, rfl⟩

theorem tokens_shifted (n : Nat) (ts : List Token) :
    Forall₂ (Placement.shifted n).Tokens ts (ts.map (Token.shift n)) :=
  List.forall₂_map_right_iff.mpr (List.forall₂_same.mpr fun _ _ => ⟨rfl, rfl, rfl, rfl⟩)

theorem severity_of_alike {R : Span → Span → Prop} {ds ds' : List Diagnostic}
    (h : Forall₂ (Diagnostic.Alike R) ds ds') (hds : ∀ d ∈ ds, d.severity ≠ .error) :
    ∀ d ∈ ds', d.severity ≠ .error := by
  induction h with
  | nil => exact hds
  | @cons d d' ds ds' hd _ ih =>
    obtain ⟨hfirst, hrest⟩ := List.forall_mem_cons.mp hds
    refine List.forall_mem_cons.mpr ⟨?_, ih hrest⟩
    rw [hd.same] at hfirst
    exact hfirst

/-- Modules that are alike at shifted places are shown as each other, shifted. -/
theorem modules_shifted {n : Nat} {names names' : Names} {ms ms' : List Design.Module}
    (h : Forall₂ (Design.Module.Alike (names.Same names') (Placement.shifted n).span) ms ms') :
    ∃ vs, ms.mapM (·.shown names) = .ok vs ∧
      ms'.mapM (·.shown names') = .ok (vs.map (·.mapSpans (Span.shift n))) := by
  obtain ⟨vs, vs', hvs, hvs', hsame⟩ := modules_mapSpans (f := Span.shift n) (g := id)
    (fun _ _ hs => hs.2.symm) h
  have hkept (m : Design.ShownModule) : m.mapSpans id = m := by
    simp [Design.ShownModule.mapSpans]
  refine ⟨vs, hvs, ?_⟩
  rw [hvs', hsame]
  simp [hkept]

namespace Run

/-- Reads the units of a text that stands alone. -/
def readUnits (content : String) : Task (List DesignUnit × Parser.Cursor) :=
  (Parser.unitsWithin (lex 0 content).1.length).task { file := 0, rest := (lex 0 content).1 }

section Clean

variable {ctx : Context} {f : SourceFile} (hf : ctx.sources.file 0 = .ok f)
  {modules : List Design.Module} {t : Session}

/-- The errors of a run over one file are those that it counts. -/
theorem errors_single (hrun : (file ctx 0).run.run {} = (.ok modules, t)) :
    (outcome ctx [modules] t).errors = t.log.errors := by
  have hcount := Task.errors_run (file ctx 0).run {}
  rw [hrun] at hcount
  rw [Outcome.errors, Outcome.count, outcome, ← List.countP_eq_length_filter,
    (List.mergeSort_perm _ _).countP_eq, held_single hrun, hcount]
  exact (Nat.zero_add _).symm

include hf

/-- A text without problems is parsed to its units. -/
theorem parsing_of_units (hnone : (lex 0 f.content).2 = []) {units : List DesignUnit}
    {c : Parser.Cursor} {s : Session}
    (hunits : (readUnits f.content).run {} = ((units, c), s)) :
    ∃ span, (Parser.parsing Parser.sourceText ctx.sources 0).run.run {} = (.ok ⟨units, span⟩, s) ∧
      (Parser.parsing Parser.sourceText ctx.sources 0).run.emitted {} =
        (readUnits f.content).emitted {} := by
  have hstart : ((Task.emitAll (lex 0 f.content).2).run {}).2 = {} := by
    rw [hnone]
    rfl
  obtain ⟨span, d, hrun, hemitted⟩ :=
    Parser.sourceText_run (c := { file := 0, rest := (lex 0 f.content).1 }) hunits
  obtain ⟨_, _, _, hrun', hmisuse, -⟩ :=
    Parser.account_sourceText (pairwise_lex 0 f.content)
      (Parser.cursors_ofFile 0 (lex 0 f.content).1) (Parser.stands_lex 0 f.content) {}
  have hsame := hrun.symm.trans hrun'
  cases hsame
  rw [← hstart] at hrun
  obtain ⟨hparse, htold⟩ := Parser.parsingText_run hrun hmisuse
  obtain ⟨hfile, hfileTold⟩ := Parser.parsing_run hf Parser.sourceText {}
  refine ⟨span, hfile.trans hparse, ?_⟩
  rw [hfileTold, htold, hstart, hnone, List.nil_append, hemitted]
  rfl

/-- A file without errors: its tokens are read without a report, and what is read is lowered. -/
theorem clean_file (hrun : (file ctx 0).run.run {} = (.ok modules, t)) (hclean : t.log.errors = 0) :
    (lex 0 f.content).2 = [] ∧ ∃ units c s,
      (readUnits f.content).run {} = ((units, c), s) ∧
      (readUnits f.content).emitted {} = [] ∧
      (units.mapM (Lowering.designUnit ctx)).run.run s = (.ok modules, t) ∧
      ∀ d ∈ (units.mapM (Lowering.designUnit ctx)).run.emitted s, d.severity ≠ .error := by
  have hall : ∀ d ∈ (file ctx 0).run.emitted {}, d.severity ≠ .error := by
    have hcount := Task.errors_run (file ctx 0).run {}
    rw [hrun, hclean] at hcount
    have hzero : ((file ctx 0).run.emitted {}).countP (fun d => d.severity = .error) = 0 :=
      (hcount.trans (Nat.zero_add _)).symm
    rw [List.countP_eq_zero] at hzero
    simpa using hzero
  obtain ⟨text, s, hparse, hlower⟩ := SessionM.exists_of_bind hrun
  rw [file, SessionM.emitted_bind hparse] at hall
  obtain ⟨hparsed, hlowered⟩ := List.forall_mem_append.mp hall
  have hnone : (lex 0 f.content).2 = [] := by
    rw [List.eq_nil_iff_forall_not_mem]
    intro d hd
    apply hparsed d _ (Parser.severity_of_mem_lex hd)
    rw [(Parser.parsing_run hf Parser.sourceText {}).2]
    exact Parser.lex_subset_emitted Parser.sourceText {} d hd
  rcases hunits : (readUnits f.content).run {} with ⟨⟨units, c⟩, u⟩
  obtain ⟨span, hparse', htold⟩ := parsing_of_units hf hnone hunits
  have hsame := hparse.symm.trans hparse'
  cases hsame
  refine ⟨hnone, units, c, s, rfl, ?_, hlower, hlowered⟩
  rw [List.eq_nil_iff_forall_not_mem]
  intro d hd
  exact hparsed d (by rwa [htold]) (Parser.severity_of_mem_task hd)

/-- A file is translated as its units are. -/
theorem file_of_units (hnone : (lex 0 f.content).2 = []) {units : List DesignUnit}
    {c : Parser.Cursor} {s : Session}
    (hunits : (readUnits f.content).run {} = ((units, c), s))
    (hlower : (units.mapM (Lowering.designUnit ctx)).run.run s = (.ok modules, t)) :
    (file ctx 0).run.run {} = (.ok modules, t) := by
  obtain ⟨span, hparse, -⟩ := parsing_of_units hf hnone hunits
  exact (SessionM.run_bind hparse).trans hlower

end Clean

/-- The end of the first text, and what stands there if the second follows. -/
def joint (first second : String) : Parser.Fork where
  left := [Token.endAt (Text.byteLength first.toList)]
  right := (lex 0 second).1.map (Token.shift (lead first))

theorem breaks_joint (first : String) {second : String}
    (hquiet : (readUnits second).emitted {} = []) : (joint first second).Breaks := by
  refine ⟨⟨_, rfl, rfl⟩, ?_⟩
  have hhead : Parser.headKind (joint first second).right = Parser.headKind (lex 0 second).1 := by
    show Parser.headKind ((lex 0 second).1.map _) = _
    cases (lex 0 second).1 <;> rfl
  obtain ⟨n, hn⟩ : ∃ n, (lex 0 second).1.length = n + 1 := by
    rw [lex_tokens, List.length_append]
    exact ⟨_, rfl⟩
  rw [readUnits, hn] at hquiet
  rw [hhead, ← Parser.current_of_rest (c := { file := 0, rest := (lex 0 second).1 }) rfl]
  exact Parser.current_of_quietUnits hquiet

/-- What is read of a text that stands alone are its tokens, up to the end. -/
theorem readUnits_passes {content : String} {us : List DesignUnit} {c : Parser.Cursor} {s : Session}
    (hus : (readUnits content).run {} = ((us, c), s)) :
    Parser.Cursor.Passes { file := 0, rest := (lex 0 content).1 } (lex 0 content).1.dropLast c ∧
      c.misuse = none := by
  obtain ⟨_, _, _, parts, hrun, hpasses, hend, -, -, -, hcursors⟩ :=
    Parser.accounted_unitsWithin (pairwise_lex 0 content) (lex 0 content).1.length
      (Parser.cursors_ofFile 0 (lex 0 content).1) (Parser.stands_lex 0 content) (Nat.le_refl _) {}
  have hsame := hus.symm.trans hrun
  cases hsame
  obtain ⟨e, -, he⟩ := Parser.rest_atEnd (pairwise_lex 0 content)
    (hpasses.stands (Parser.stands_lex 0 content)) hend
  have hall : (lex 0 content).1 = parts.flatMap Stretch.tokens ++ c.rest := hpasses.rest
  have htokens : (lex 0 content).1.dropLast = parts.flatMap Stretch.tokens := by
    rw [hall, he, List.dropLast_concat]
  rw [htokens]
  exact ⟨hpasses, hcursors.misuse⟩

section Joined

variable {first second : String} (hfirst : (lex 0 first).2 = []) (hsecond : (lex 0 second).2 = [])
  (hclosed : Closed first) {ctx ctx' : Context} {path path' : String}

include hfirst hsecond hclosed

/-- The units of the first text have the same places and texts in both together. -/
theorem alike_first (hf : ctx.sources.file 0 = .ok ⟨path, first⟩)
    (hf' : ctx'.sources.file 0 = .ok ⟨path', first ++ "\n" ++ second⟩) {us : List DesignUnit}
    {c : Parser.Cursor} {s : Session} (hus : (readUnits first).run {} = ((us, c), s)) :
    Forall₂ (DesignUnit.Alike (Frame.ofPlacement (.shifted 0) ctx.sources ctx'.sources 0
      (s.names.Same s.names))) us us := by
  have htext : ∀ w ∈ (lex 0 first).1, ctx'.sources.snippet (w.span 0) = .ok w.text := by
    intro w hw
    rw [lex_dropLast, List.mem_append] at hw
    rcases hw with hw | hw
    · apply snippet_of_mem_lex hf'
      rw [lex_joined hfirst hsecond hclosed.attributes]
      exact List.mem_append_left _ hw
    · obtain rfl := List.mem_singleton.mp hw
      have hend := Text.slice?_append first.toList [] ("\n" ++ second).toList
      refine snippet_eq hf' ?_
      show (Text.slice? _ _ (first ++ "\n" ++ second).toList).map String.ofList = some ""
      rw [String.append_assoc, String.toList_append]
      exact congrArg (Option.map String.ofList) hend
  have hcursors : (Frame.ofPlacement (.shifted 0) ctx.sources ctx'.sources 0
      (s.names.Same s.names)).Cursors { file := 0, rest := (lex 0 first).1 }
      { file := 0, rest := (lex 0 first).1 } := by
    refine .self ⟨fun _ => rfl, rfl⟩ rfl rfl rfl (fun _ => trivial) (fun w hw => ?_) nofun ?_
    · exact ⟨rfl, rfl, ⟨rfl, rfl⟩, ⟨snippet_of_mem_lex hf hw, htext w hw⟩, fun _ => trivial⟩
    · exact fun hnil _ => absurd hnil (by simp [lex_tokens])
  have hpaired := (Parser.mirror_unitsWithin trivial (lex 0 first).1.length).paired
    (serves_ofPlacement fun _ _ => False) hcursors
  rw [readUnits] at hus
  have hboth := hpaired.run (by
    rw [hus]
    exact holds_ofPlacement fun _ _ h => h.elim)
  rw [hus] at hboth
  exact hboth.1.1

/-- Behind the first text the parser is where it would be at the start of the second. -/
theorem ahead_joined (hf : ctx.sources.file 0 = .ok ⟨path, second⟩)
    (hf' : ctx'.sources.file 0 = .ok ⟨path', first ++ "\n" ++ second⟩) {us : List DesignUnit}
    {c : Parser.Cursor} {s : Session} (hus : (readUnits first).run {} = ((us, c), s))
    (hquiet : (readUnits first).emitted {} = []) (name : Nat → Nat → Prop) :
    (Frame.ofPlacement (.shifted (lead first)) ctx.sources ctx'.sources
      (lex 0 first).1.dropLast.length name).Ahead
      { file := 0, rest := (lex 0 second).1 } ((joint first second).turn [] c) := by
  obtain ⟨hpasses, hmisuse⟩ := readUnits_passes hus
  have herrors := Parser.errors_task (Parser.unitsWithin (lex 0 first).1.length)
    { file := 0, rest := (lex 0 first).1 } {}
  rw [readUnits] at hus hquiet
  rw [hus, hquiet] at herrors
  exact {
    file := rfl
    file' := hpasses.file
    rest := by
      apply tokens_ofPlacement hf hf' (tokens_shifted (lead first) _) (fun _ h => h)
      intro w hw
      rw [lex_joined hfirst hsecond hclosed.attributes]
      exact List.mem_append_right _ hw
    consumed := hpasses.consumed
    errors := rfl
    errors' := herrors
    misuse := rfl
    misuse' := hmisuse }

/-- The units of the first text, and then those of the second. -/
theorem read_joined (hf : ctx.sources.file 0 = .ok ⟨path, second⟩)
    (hf' : ctx'.sources.file 0 = .ok ⟨path', first ++ "\n" ++ second⟩) {us vs : List DesignUnit}
    {c d : Parser.Cursor} {s t : Session}
    (hus : (readUnits first).run {} = ((us, c), s)) (hquiet : (readUnits first).emitted {} = [])
    (hvs : (readUnits second).run {} = ((vs, d), t))
    (hquiet' : (readUnits second).emitted {} = []) :
    ∃ vs' e u ahead, (readUnits (first ++ "\n" ++ second)).run {} = ((us ++ vs', e), u) ∧
      u.log.errors = 0 ∧ s.names.Extends u.names ∧
      Forall₂ (DesignUnit.Alike (Frame.ofPlacement (.shifted (lead first)) ctx.sources ctx'.sources
        ahead (t.names.Same u.names))) vs vs' := by
  have hK := breaks_joint first hquiet'
  have hjoined := lex_joined hfirst hsecond hclosed.attributes
  have hlength : (lex 0 (first ++ "\n" ++ second)).1.length =
      (lex 0 first).1.dropLast.length + (joint first second).right.length := by
    rw [hjoined, List.length_append]
    rfl
  obtain ⟨hpasses, -⟩ := readUnits_passes hus
  obtain ⟨hend, later, hlater, hcontinue⟩ :=
    Parser.turn_unitsWithin (c := { file := 0, rest := (lex 0 first).1 }) hK hclosed.brackets
      (lex_dropLast 0 first) hpasses.inner (Nat.le_refl _) (Nat.le_of_eq hlength.symm) hus hquiet
  rcases hmore : ((Parser.unitsWithin (lex 0 second).1.length).task
    ((joint first second).turn [] c)).run s with ⟨⟨vs', e⟩, u⟩
  have hright : (joint first second).right.length = (lex 0 second).1.length := List.length_map _
  have hread : (readUnits (first ++ "\n" ++ second)).run {} = ((us ++ vs', e), u) := by
    have hbehind := (Parser.unitsWithin_bound (c := (joint first second).turn [] c) hlater
      (Nat.le_of_eq hright) s).trans hmore
    have hboth := hcontinue vs' e u hbehind
    rw [readUnits, hjoined]
    rw [hjoined] at hboth
    exact hboth
  have hahead := ahead_joined hfirst hsecond hclosed hf hf' hus hquiet (t.names.Same u.names)
  obtain ⟨halike, hsilent⟩ := Parser.alike_unitsWithin (serves_ofPlacement fun _ _ => False)
    trivial hahead hvs hmore (holds_ofPlacement fun _ _ h => h.elim) hquiet'
  refine ⟨vs', e, u, _, hread, ?_, Task.extends_of_run hmore, halike⟩
  have hlog := Task.log_eq hquiet
  have hlog' := Task.log_eq hsilent
  rw [hus] at hlog
  rw [hmore, hlog] at hlog'
  rw [hlog']

end Joined

section Joined

variable {first second : String} (hclosed : Closed first) {ctx ctx' ctx'' : Context}
  {path path' path'' : String} {ms ms' : List Design.Module} {t t' : Session}

include hclosed

/-- The modules of the first text, and then those of the second. -/
theorem file_joined (hf : ctx.sources.file 0 = .ok ⟨path, first⟩)
    (hf' : ctx'.sources.file 0 = .ok ⟨path', second⟩)
    (hf'' : ctx''.sources.file 0 = .ok ⟨path'', first ++ "\n" ++ second⟩)
    (hlevel : ctx.level = ctx''.level) (hlevel' : ctx'.level = ctx''.level)
    (hrun : (file ctx 0).run.run {} = (.ok ms, t)) (hclean : t.log.errors = 0)
    (hrun' : (file ctx' 0).run.run {} = (.ok ms', t')) (hclean' : t'.log.errors = 0) :
    ∃ ns ns' u, (file ctx'' 0).run.run {} = (.ok (ns ++ ns'), u) ∧ u.log.errors = 0 ∧
      Forall₂ (Design.Module.Alike (t.names.Same u.names) (Placement.shifted 0).span) ms ns ∧
      Forall₂ (Design.Module.Alike (t'.names.Same u.names)
        (Placement.shifted (lead first)).span) ms' ns' := by
  obtain ⟨hfirst, us, c, s, hus, hquiet, hlower, hlowered⟩ := clean_file hf hrun hclean
  obtain ⟨hsecond, vs, d, s', hvs, hquiet', hlower', hlowered'⟩ := clean_file hf' hrun' hclean'
  obtain ⟨vs', e, r, ahead, hread, herrors, hnames, hlater⟩ :=
    read_joined hfirst hsecond hclosed hf' hf'' hus hquiet hvs hquiet'
  -- First the units of the first text are lowered, from the session that both texts left.
  obtain ⟨_, _, ns, q, hsame, hnew, halike, hdiags⟩ := lowered_ofPlacement hlevel
    (alike_first hfirst hsecond hclosed hf hf'' hus) (.refl s.names) hnames
  cases hlower.symm.trans hsame
  have hgrown := Task.extends_of_run hnew
  obtain ⟨_, _, ns', u, hsame', hnew', halike', hdiags'⟩ :=
    lowered_ofPlacement hlevel' hlater (.refl s'.names) hgrown
  cases hlower'.symm.trans hsame'
  have hmore := Task.extends_of_run hnew'
  have hnone : (lex 0 (first ++ "\n" ++ second)).2 = [] := by
    rw [lex_joined hfirst hsecond hclosed.attributes]
  refine ⟨ns, ns', u, file_of_units hf'' hnone hread (SessionM.mapM_append hnew hnew'), ?_,
    halike t.names u.names (.refl _) hmore, halike' t'.names u.names (.refl _) (.refl _)⟩
  have hq : q.log.errors = r.log.errors := by
    have hsame := Task.errors_eq (severity_of_alike hdiags hlowered)
    rwa [hnew] at hsame
  have hu : u.log.errors = q.log.errors := by
    have hsame := Task.errors_eq (severity_of_alike hdiags' hlowered')
    rwa [hnew'] at hsame
  rw [hu, hq, herrors]

end Joined

/-- What is seen of a run over one text. -/
theorem view_single {path content : String} {level : NoticeLevel} {ms : List Design.Module}
    {t : Session} {vs : List Design.ShownModule} (hvs : ms.mapM (·.shown t.names) = .ok vs) :
    (outcome (context [(path, content)] level) [ms] t).view =
      .ok ⟨vs, t.log.held.toList.mergeSort (inOrder 1)⟩ := by
  simp only [Outcome.view, outcome, List.flatten_singleton, hvs, size_context]
  rfl

/-- A text that is translated without errors and leaves nothing open may be followed by another
one: the modules are those of the first, and then those of the second at their places. -/
theorem texts_joined {first second : String} (hclosed : Closed first)
    (path path' path'' : String) (level : NoticeLevel) {o o' : Outcome}
    (ho : texts [(path, first)] level = .ok o) (hclean : o.errors = 0)
    (ho' : texts [(path', second)] level = .ok o') (hclean' : o'.errors = 0) :
    ∃ v v' o'' v'', o.view = .ok v ∧ o'.view = .ok v' ∧
      texts [(path'', first ++ "\n" ++ second)] level = .ok o'' ∧ o''.view = .ok v'' ∧
      o''.errors = 0 ∧
      v''.modules = v.modules ++ v'.modules.map (·.mapSpans (Span.shift (lead first))) := by
  have hfile (path content : String) :
      (context [(path, content)] level).sources.file 0 = .ok ⟨path, content⟩ :=
    file_context (f := (path, content)) rfl
  obtain ⟨ms, t, hrun, -⟩ := file_alone (hfile path first) {}
  obtain ⟨ms', t', hrun', -⟩ := file_alone (hfile path' second) {}
  cases ho.symm.trans (all_single size_context hrun)
  cases ho'.symm.trans (all_single size_context hrun')
  replace hclean := (errors_single hrun).symm.trans hclean
  replace hclean' := (errors_single hrun').symm.trans hclean'
  obtain ⟨ns, ns', u, hjoined, herrors, halike, halike'⟩ :=
    file_joined hclosed (hfile path first) (hfile path' second) (hfile path'' _) rfl rfl hrun hclean
      hrun' hclean'
  obtain ⟨vs, hvs, hns⟩ := modules_shifted halike
  obtain ⟨vs', hvs', hns'⟩ := modules_shifted halike'
  have hstay : vs.map (·.mapSpans (Span.shift 0)) = vs := by
    simp [Design.ShownModule.mapSpans, Span.shift]
  have hboth : (ns ++ ns').mapM (·.shown u.names) =
      .ok (vs ++ vs'.map (·.mapSpans (Span.shift (lead first)))) := by
    rw [List.mapM_append, hns, hns', hstay]
    rfl
  exact ⟨_, _, _, _, view_single hvs, view_single hvs', all_single size_context hjoined,
    view_single hboth, (errors_single hjoined).trans herrors, rfl⟩

/-- How many errors there are in a text, as its run counts them. -/
theorem texts_errors (path content : String) (level : NoticeLevel) :
    ∃ o, texts [(path, content)] level = .ok o ∧
      o.errors = ((file (context [(path, content)] level) 0).run.run {}).2.log.errors := by
  have hf : (context [(path, content)] level).sources.file 0 = .ok ⟨path, content⟩ :=
    file_context (f := (path, content)) rfl
  obtain ⟨ms, t, hrun, -⟩ := file_alone hf {}
  refine ⟨_, all_single size_context hrun, (errors_single hrun).trans ?_⟩
  rw [hrun]

theorem texts_joined_attribute :
    ∃ o v o' v' o'' v'',
      texts [("a.sv", "module a; foo u((* p *) .x); endmodule")] .warning = .ok o ∧
      o.errors = 0 ∧ o.view = .ok v ∧
      texts [("b.sv", "module b; foo u(.*); endmodule")] .warning = .ok o' ∧ o'.errors = 0 ∧
      o'.view = .ok v' ∧
      texts [("c.sv", "module a; foo u((* p *) .x); endmodule" ++ "\n" ++
        "module b; foo u(.*); endmodule")] .warning = .ok o'' ∧ o''.view = .ok v'' ∧
      o''.errors = 0 ∧
      v''.modules = v.modules ++ v'.modules.map
        (·.mapSpans (Span.shift (lead "module a; foo u((* p *) .x); endmodule"))) := by
  have hclosed : Closed "module a; foo u((* p *) .x); endmodule" :=
    ⟨by decide +kernel, by decide +kernel⟩
  obtain ⟨o, ho, hcount⟩ := texts_errors "a.sv" "module a; foo u((* p *) .x); endmodule" .warning
  obtain ⟨o', ho', hcount'⟩ := texts_errors "b.sv" "module b; foo u(.*); endmodule" .warning
  have hclean : o.errors = 0 := hcount.trans (by decide +kernel)
  have hclean' : o'.errors = 0 := hcount'.trans (by decide +kernel)
  obtain ⟨v, v', o'', v'', hv, hv', ho'', hv'', herrors, hmodules⟩ :=
    texts_joined hclosed "a.sv" "b.sv" "c.sv" .warning ho hclean ho' hclean'
  exact ⟨o, v, o', v', o'', v'', ho, hclean, hv, ho', hclean', hv', ho'', hv'', herrors, hmodules⟩

/-- Two texts that are translated without errors are so too if one follows the other. -/
def JoinsCleanly (first second : String) : Prop :=
  ∀ o o' o'', texts [("a.sv", first)] .warning = .ok o → o.errors = 0 →
    texts [("a.sv", second)] .warning = .ok o' → o'.errors = 0 →
    texts [("a.sv", first ++ "\n" ++ second)] .warning = .ok o'' → o''.errors = 0

/-- An opening attribute bracket with no closing one changes how a later wildcard is lexed, and a
bracket left open is closed by one of a later unit. -/
theorem open_brackets_reach_on :
    ¬ JoinsCleanly "module a; always @(* ) x = y; endmodule" "module b; foo u(.*); endmodule" ∧
      ¬ JoinsCleanly "module a; foo x [; endmodule" "module b; wire ) (; endmodule" := by
  have hbroken {first second : String}
      (hfirst : ((file (context [("a.sv", first)] .warning) 0).run.run {}).2.log.errors = 0)
      (hsecond : ((file (context [("a.sv", second)] .warning) 0).run.run {}).2.log.errors = 0)
      (hboth : ((file (context [("a.sv", first ++ "\n" ++ second)] .warning) 0).run.run
        {}).2.log.errors ≠ 0) : ¬ JoinsCleanly first second := by
    intro hjoins
    obtain ⟨o, ho, hcount⟩ := texts_errors "a.sv" first .warning
    obtain ⟨o', ho', hcount'⟩ := texts_errors "a.sv" second .warning
    obtain ⟨o'', ho'', hcount''⟩ := texts_errors "a.sv" (first ++ "\n" ++ second) .warning
    exact hboth (hcount''.symm.trans
      (hjoins o o' o'' ho (hcount.trans hfirst) ho' (hcount'.trans hsecond) ho''))
  exact ⟨hbroken (by decide +kernel) (by decide +kernel) (by decide +kernel),
    hbroken (by decide +kernel) (by decide +kernel) (by decide +kernel)⟩

end Run

end Netlist
