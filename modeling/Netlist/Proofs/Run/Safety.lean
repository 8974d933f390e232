import Netlist.Proofs.Parser.Account
import Netlist.Proofs.Run.Alone
import Netlist.Proofs.Source.Places

/-!
A run over any texts ends without misuse, its modules have names it knows, and its diagnostics can
be rendered. Places count lines and columns in 32 bits, so the last takes more than texts of less
than 2^32 bytes: one of the greatest length must not be a single line.
-/
namespace Netlist

open List (Forall₂)
open Lowering (Context NoticeLevel)
open Netlist.Parser

namespace Sources

theorem files_ofList (files : List (String × String)) :
    (ofList files).files = (files.map fun f => (⟨f.1, f.2⟩ : SourceFile)).toArray := by
  have hfold (sources : Sources) :
      (files.foldl (fun sources f => (sources.add f.1 f.2).2) sources).files =
        sources.files ++ (files.map fun f => (⟨f.1, f.2⟩ : SourceFile)).toArray := by
    induction files generalizing sources with
    | nil => simp
    | cons f fs ih => rw [List.foldl_cons, ih]; simp [add]
  exact (hfold {}).trans (Array.empty_append)

theorem file_eq_ok_iff {sources : Sources} {n : Nat} {f : SourceFile} :
    sources.file n = .ok f ↔ sources.files[n]? = some f := by
  unfold file
  cases sources.files[n]? <;> simp

theorem exists_file {sources : Sources} {n : Nat} (hn : n < sources.files.size) :
    ∃ f, sources.file n = .ok f :=
  ⟨sources.files[n], file_eq_ok_iff.mpr (Array.getElem?_eq_getElem hn)⟩

end Sources

/-- A diagnostic that points into a file of the session, one that is not blank. -/
def Diagnostic.Inside (sources : Sources) (d : Diagnostic) : Prop :=
  ∃ f, sources.file d.span.file = .ok f ∧ d.span.start ≤ d.span.stop ∧
    d.span.stop ≤ Text.byteLength f.content.toList ∧
    ¬ ∀ c ∈ f.content.toList, Piece.isSpace c = true

namespace Run

variable {ctx : Context}

private theorem sourceText_atEnd {c : Cursor} {length : Nat} (hrest : c.rest = [Token.endAt length])
    (s : Session) :
    (Parser.sourceText.task c).run s = ((⟨[], c.currentSpan.atStart⟩, c), s) ∧
      (Parser.sourceText.task c).emitted s = [] := by
  have hstart : (currentSpan.task c).run s = ((c.currentSpan, c), s) := rfl
  have hlook : (look.task c).run s = ((c, c), s) := rfl
  have hremaining : (remaining.task c).run s = ((1, c), s) := by
    show ((c.rest.length, c), s) = _
    rw [hrest]
    rfl
  have hcurrent : (current.task c).run s = ((.eof, c), s) := by
    show ((c.current, c), s) = _
    simp [Cursor.current, Cursor.kindAt, hrest, Token.endAt]
  have hunits : ((unitsWithin 1).task c).run s = (([], c), s) := by
    rw [unitsWithin, run_bind hcurrent]
    rfl
  have hspan : ((spanSince c.currentSpan c.consumed).task c).run s =
      ((c.currentSpan.atStart, c), s) := by
    rw [spanSince, run_bind hlook, if_neg (Nat.lt_irrefl _)]
    rfl
  constructor
  · rw [sourceText, run_bind hstart, run_bind hlook, run_bind hremaining, run_bind hunits,
      run_bind hspan]
    rfl
  · rw [sourceText, emitted_bind hstart, emitted_bind hlook, emitted_bind hremaining,
      emitted_bind hunits, emitted_bind hspan, unitsWithin, emitted_bind hcurrent, spanSince,
      emitted_bind hlook, if_neg (Nat.lt_irrefl _)]
    rfl

/-- Nothing is said about a blank file. -/
theorem emitted_blank {n : Nat} {f : SourceFile} (hf : ctx.sources.file n = .ok f)
    (hblank : ∀ c ∈ f.content.toList, Piece.isSpace c = true) (s : Session) :
    (file ctx n).run.emitted s = [] := by
  have hlex : lex n f.content = ([Token.endAt (Text.byteLength f.content.toList)], []) := by
    obtain ⟨htokens, hproblems⟩ := tokens_of_spaces n 0 0 hblank
    exact Prod.ext (congrArg (· ++ [_]) htokens) hproblems
  have hrest : (Cursor.mk n none (lex n f.content).1 0 0 none).rest =
      [Token.endAt (Text.byteLength f.content.toList)] := congrArg Prod.fst hlex
  obtain ⟨htask, hquiet⟩ :=
    sourceText_atEnd hrest ((Task.emitAll (lex n f.content).2).run s).2
  obtain ⟨hempty, hsilent⟩ := Parser.parsingText_run htask rfl
  rw [hquiet, hlex] at hsilent
  obtain ⟨hsame, hemitted⟩ := Parser.parsing_run hf Parser.sourceText s
  unfold file
  rw [SessionM.emitted_bind (hsame.trans hempty), hemitted, hsilent]
  rfl

/-- What the run of one file leaves behind. -/
structure FileDone (ctx : Context) (s : Session) (modules : List Design.Module) (t : Session) :
    Prop where
  names : s.names.Extends t.names
  shown : ∀ later, t.names.Extends later → ∀ m ∈ modules, ∃ v, m.shown later = .ok v
  log : ∀ d ∈ t.log.held.toList, d ∈ s.log.held.toList ∨ d.Inside ctx.sources

theorem fileDone {n : Nat} (hn : n < ctx.sources.files.size) (s : Session) :
    ∃ modules t, (file ctx n).run.run s = (.ok modules, t) ∧ FileDone ctx s modules t := by
  obtain ⟨f, hf⟩ := Sources.exists_file hn
  obtain ⟨modules, t, hrun, hmodules, hdiags, -⟩ := file_alone hf s
  refine ⟨modules, t, hrun, Task.extends_of_run hrun, ?_, ?_⟩
  · intro later hlater m hm
    have hsame := List.forall₂_same.mp (hmodules later hlater) m hm
    obtain ⟨v, hv, -⟩ := hsame.shown fun _ _ h => h.eq_inFile
    exact ⟨v, hv⟩
  · intro d hd
    have hheld := Task.held_run (file ctx n).run s
    rw [hrun] at hheld
    rw [hheld, List.mem_append] at hd
    apply hd.imp_right
    intro hd
    have hrange := (List.forall₂_same.mp hdiags d hd).span
    refine ⟨f, by rw [hrange.file, hf], hrange.ordered, hrange.inside, fun hblank => ?_⟩
    rw [emitted_blank hf hblank s] at hd
    cases hd

theorem FileDone.steps {ns : List Nat} {s t : Session} {lists : List (List Design.Module)}
    (h : Steps (fun _ => FileDone ctx) ns s lists t) : FileDone ctx s lists.flatten t := by
  induction h with
  | nil s => exact ⟨.refl _, nofun, fun d hd => .inl hd⟩
  | @cons n ns modules lists s t u hfirst hrest ih =>
    refine ⟨hfirst.names.trans ih.names, ?_, ?_⟩
    · intro later hlater m hm
      rw [List.flatten_cons, List.mem_append] at hm
      rcases hm with hm | hm
      · exact hfirst.shown later (ih.names.trans hlater) m hm
      · exact ih.shown later hlater m hm
    · intro d hd
      rcases ih.log d hd with hd | hd
      · exact hfirst.log d hd
      · exact .inr hd

/-- The outcome of a run whose files have all been worked on. -/
theorem all_of_run {lists : List (List Design.Module)} {t : Session}
    (h : ((List.range ctx.sources.files.size).mapM (file ctx)).run.run {} = (.ok lists, t)) :
    all ctx = .ok (outcome ctx lists t) := by
  rw [all, h]
  rfl

/-- A run ends without misuse. -/
theorem all_ok (ctx : Context) :
    ∃ o, all ctx = .ok o ∧ o.sources = ctx.sources ∧
      (∀ m ∈ o.modules, ∃ v, m.shown o.names = .ok v) ∧
      ∀ d ∈ o.diagnostics, d.Inside ctx.sources := by
  have hfiles : ∀ n ∈ List.range ctx.sources.files.size, ∀ s, True → ∃ modules t,
      (file ctx n).run.run s = (.ok modules, t) ∧ True ∧ FileDone ctx s modules t := by
    intro n hn s _
    obtain ⟨modules, t, hrun, hdone⟩ := fileDone (List.mem_range.mp hn) s
    exact ⟨modules, t, hrun, trivial, hdone⟩
  obtain ⟨lists, t, hrun, -, hsteps⟩ := SessionM.mapM_run (s := {}) hfiles trivial
  have hdone := FileDone.steps hsteps
  refine ⟨_, all_of_run hrun, rfl, hdone.shown t.names (.refl _), ?_⟩
  intro d hd
  exact (hdone.log d (List.mem_mergeSort.mp hd)).resolve_left nofun

/-- A run over one file is the run of that file. -/
theorem all_single {modules : List Design.Module} {t : Session}
    (hsize : ctx.sources.files.size = 1) (hfile : (file ctx 0).run.run {} = (.ok modules, t)) :
    all ctx = .ok (outcome ctx [modules] t) := by
  refine all_of_run ?_
  rw [hsize]
  exact SessionM.run_bind hfile

/-- A file in a new session leaves just its own diagnostics. -/
theorem held_single {n : Nat} {r : Except Misuse (List Design.Module)} {t : Session}
    (hfile : (file ctx n).run.run {} = (r, t)) :
    t.log.held.toList = (file ctx n).run.emitted {} := by
  have hheld := Task.held_run (file ctx n).run {}
  rwa [hfile] at hheld

end Run

/-- The texts whose diagnostics can be rendered wherever they point: shorter than 2^32 bytes, and
one of the greatest length that leaves has a line break. -/
def Renderable (content : String) : Prop :=
  Text.byteLength content.toList < UInt32.size ∧
    (Text.byteLength content.toList = UInt32.size - 1 → '\n' ∈ content.toList)

theorem Renderable.placeable {content : String} (h : Renderable content)
    (hblank : ¬ ∀ c ∈ content.toList, Piece.isSpace c = true) : Placeable content := by
  obtain ⟨hlength, hbreak⟩ := h
  rcases Nat.lt_or_ge (Text.byteLength content.toList + 1) UInt32.size with hshort | hlong
  · exact .inl hshort
  · refine .inr ⟨hlength, hbreak (by omega), ?_⟩
    by_contra hnone
    apply hblank
    intro c hc
    by_cases hnewline : c = '\n'
    · rw [hnewline]
      rfl
    · exact absurd ⟨c, hc, hnewline⟩ hnone

/-- A run over any texts ends without misuse, every name of its modules is known, and every
diagnostic can be rendered if the texts are renderable. -/
theorem Run.texts_safe (files : List (String × String)) (level : NoticeLevel)
    (hfiles : ∀ f ∈ files, Renderable f.2) :
    ∃ o, Run.texts files level = .ok o ∧ (∀ m ∈ o.modules, ∃ v, m.shown o.names = .ok v) ∧
      ∀ color, ∃ text, o.render color = .ok text := by
  obtain ⟨o, hrun, hsources, hshown, hinside⟩ :=
    Run.all_ok { sources := Sources.ofList files, level := level }
  refine ⟨o, hrun, hshown, fun color => Report.renderAll_ok_iff.mpr fun d hd => ?_⟩
  obtain ⟨f, hf, hordered, hstop, hblank⟩ := hinside d hd
  rw [hsources]
  refine Report.render_ok color hf ?_ hordered hstop
  rw [Sources.file_eq_ok_iff, Sources.files_ofList, List.getElem?_toArray, List.getElem?_map,
    Option.map_eq_some_iff] at hf
  obtain ⟨g, hg, rfl⟩ := hf
  exact (hfiles g (List.mem_of_getElem? hg)).placeable hblank

theorem Run.texts_safe_unclosed :
    (∀ f ∈ [("a.sv", "module")], Renderable f.2) ∧
      ∃ o, Run.texts [("a.sv", "module")] .warning = .ok o ∧
        (∀ m ∈ o.modules, ∃ v, m.shown o.names = .ok v) ∧
        ∀ color, ∃ text, o.render color = .ok text := by
  have hrenderable : ∀ f ∈ [("a.sv", "module")], Renderable f.2 := by
    intro f hf
    obtain rfl := List.mem_singleton.mp hf
    exact ⟨by decide +kernel, fun h => absurd h (by decide +kernel)⟩
  exact ⟨hrenderable, Run.texts_safe _ .warning hrenderable⟩

/-- An opening word and blanks behind it, all on one line. -/
def openingLine (blanks : Nat) : String :=
  String.ofList ("module".toList ++ List.replicate blanks ' ')

theorem toList_openingLine (blanks : Nat) :
    (openingLine blanks).toList = "module".toList ++ List.replicate blanks ' ' :=
  String.toList_ofList

theorem byteLength_openingLine (blanks : Nat) :
    Text.byteLength (openingLine blanks).toList = blanks + 6 := by
  have hblanks : Text.byteLength (List.replicate blanks ' ') = blanks := by
    induction blanks with
    | zero => rfl
    | succ n ih =>
      rw [List.replicate_succ, Text.byteLength, ih]
      have hsize : ' '.utf8Size = 1 := by decide
      omega
  have hword : Text.byteLength "module".toList = 6 := by decide +kernel
  rw [toList_openingLine, Text.byteLength_append, hblanks, hword]
  omega

private theorem takeWhile_openingLine (blanks : Nat) :
    ('m' :: ("odule".toList ++ List.replicate blanks ' ')).takeWhile Piece.isNameChar =
      "module".toList := by
  have hpass : "module".toList.all Piece.isNameChar = true := by decide +kernel
  have hstop : (List.replicate blanks ' ').takeWhile Piece.isNameChar = [] := by
    cases blanks with
    | zero => rfl
    | succ n => exact List.takeWhile_cons_of_neg (by decide)
  have hall : ("module".toList ++ List.replicate blanks ' ').takeWhile Piece.isNameChar =
      "module".toList ++ (List.replicate blanks ' ').takeWhile Piece.isNameChar :=
    List.takeWhile_append_of_pos (List.all_eq_true.mp hpass)
  rw [hstop, List.append_nil] at hall
  exact hall

private theorem ofCons_openingLine (blanks : Nat) :
    Piece.ofCons 0 'm' ("odule".toList ++ List.replicate blanks ' ') =
      { kind := some (.unitStart .module), width := 6 } := by
  have hkind : Kind.ofSpelling? (String.ofList "module".toList) = some (.unitStart .module) := by
    decide +kernel
  unfold Piece.ofCons
  rw [if_neg (by decide), if_neg (by simp), if_neg (by simp), if_neg (by decide),
    if_pos (by decide), takeWhile_openingLine]
  simp only [hkind]
  rfl

theorem lex_openingLine (file blanks : Nat) :
    lex file (openingLine blanks) =
      ([⟨.unitStart .module, "module", 0, 6⟩, Token.endAt (blanks + 6)], []) := by
  have hscan : Lexeme.ofText (openingLine blanks).toList =
      ⟨some (.unitStart .module), "module".toList, 0, []⟩ ::
        Lexeme.scan 0 6 0 (List.replicate blanks ' ') := by
    rw [toList_openingLine]
    show Lexeme.scan 0 0 0 ('m' :: ("odule".toList ++ List.replicate blanks ' ')) = _
    rw [Lexeme.scan_cons, Lexeme.first, ofCons_openingLine]
    rfl
  have hspaces : ∀ c ∈ List.replicate blanks ' ', Piece.isSpace c = true := by
    intro c hc
    rw [List.eq_of_mem_replicate hc]
    decide
  obtain ⟨htokens, hproblems⟩ := tokens_of_spaces file 6 0 hspaces
  have hlength := byteLength_openingLine blanks
  refine Prod.ext ?_ ?_
  · have htoken : Token.ofLexeme? ⟨some (.unitStart .module), "module".toList, 0, []⟩ =
        some ⟨.unitStart .module, "module", 0, 6⟩ := by decide +kernel
    rw [lex_tokens, hscan, hlength, List.filterMap_cons, htokens, htoken]
    rfl
  · rw [lex_problems, hscan, List.flatMap_cons, hproblems]
    rfl

/-- The end of a text of the greatest length on one line is reported, and has no place. -/
theorem Run.texts_unsafe_line :
    Text.byteLength (openingLine (UInt32.size - 7)).toList < UInt32.size ∧
      ¬ ∃ o, Run.texts [("a.sv", openingLine (UInt32.size - 7))] .warning = .ok o ∧
        ∃ text, o.render false = .ok text := by
  have hsize : UInt32.size = 4294967296 := rfl
  generalize hblanks : UInt32.size - 7 = blanks
  refine ⟨by rw [byteLength_openingLine]; omega, ?_⟩
  rintro ⟨o, hrun, hrender⟩
  let ctx : Context :=
    { sources := Sources.ofList [("a.sv", openingLine blanks)], level := .warning }
  have hf : ctx.sources.file 0 = .ok ⟨"a.sv", openingLine blanks⟩ := rfl
  obtain ⟨modules, t, hfile, -⟩ := Run.file_alone hf {}
  obtain ⟨text, u, hparse, -⟩ := Parser.parsing_alone hf {}
  have hlex : lex 0 (openingLine blanks) =
      ([⟨.unitStart .module, "module", 0, 6⟩, Token.endAt 4294967295], []) := by
    rw [lex_openingLine, show blanks + 6 = 4294967295 by omega]
  have hreport : ((sourceText.task { file := 0, rest :=
      [⟨.unitStart .module, "module", 0, 6⟩, Token.endAt 4294967295] }).emitted {}).any
      (fun d => d.span = ⟨0, 4294967295, 4294967295⟩) = true := by decide +kernel
  obtain ⟨d, hd, hspan⟩ := List.any_eq_true.mp hreport
  have hemitted : d ∈ t.log.held.toList := by
    rw [held_single hfile]
    unfold file
    rw [SessionM.emitted_bind hparse, (parsing_run hf sourceText {}).2, parsingText_eq,
      SessionM.emitted_bind (SessionM.run_lift _ _), SessionM.emitted_bind (SessionM.run_lift _ _),
      SessionM.emitted_lift, SessionM.emitted_lift, hlex]
    exact List.mem_append_left _ (List.mem_append_right _ (List.mem_append_left _ hd))
  obtain rfl := Except.ok.inj ((Run.all_single rfl hfile).symm.trans hrun)
  obtain ⟨text, htext⟩ :=
    Report.renderAll_ok_iff.mp hrender d (List.mem_mergeSort.mpr hemitted)
  have hplace : d.span = ⟨0, 4294967295, 4294967295⟩ := of_decide_eq_true hspan
  have hnumber : d.span.file = 0 := congrArg Span.file hplace
  have hstart : d.span.start = 4294967295 := congrArg Span.start hplace
  have hfar : (SourceFile.mk "a.sv" (openingLine blanks)).place d.span.start =
      .error (.farPlace d.span.start) := by
    refine SourceFile.place_far (fun hbreak => ?_) (by omega)
    rw [SourceFile.chars, toList_openingLine, List.mem_append] at hbreak
    rcases hbreak with hbreak | hbreak
    · exact absurd hbreak (by decide +kernel)
    · exact absurd (List.eq_of_mem_replicate hbreak) (by decide)
  rw [← hnumber] at hf
  have hdummy : d.span.isDummy = false := by
    rw [Span.isDummy, hnumber]
    rfl
  cases (Report.render_far false hdummy hf hfar).symm.trans htext

end Netlist
