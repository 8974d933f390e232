import Netlist.Proofs.Design.Shown
import Netlist.Proofs.Run.SameText
import Netlist.Proofs.Session.Sequence

/-!
One file at a time. From any session a file is parsed and lowered without misuse; its modules have
names that the session knows, and its diagnostics point into its text. If no error was reported
while parsing, the tree has no node for broken source.
-/
namespace Netlist

open List (Forall₂)
open Netlist.Syntax (SourceText)

theorem Span.SameRange.eq_inFile {content : String} {file file' : Nat} {s s' : Span}
    (h : s.SameRange content file file' s') : s = s'.inFile file := by
  obtain ⟨n, start, stop⟩ := s
  obtain ⟨n', start', stop'⟩ := s'
  obtain ⟨rfl, rfl, rfl, rfl, -, -⟩ := h
  rfl

/-- The frame of one parse that took the session from `s` to `t`. -/
def Frame.alone (content : String) (file : Nat) (s t : Session) : Frame :=
  .ofText content file file (t.names.Same t.names) (t.log.errors ≠ s.log.errors) True

namespace Parser

variable {file : Nat} {content : String}

/-- The steps of parsing a text. -/
theorem parsingText_eq {α : Type} (parser : ParserM α) (file : Nat) (content : String) :
    parsingText parser file content = (do
      let _ ← (ExceptT.lift (Task.emitAll (lex file content).2) : SessionM Unit)
      let p ← (ExceptT.lift (parser.task { file := file, rest := (lex file content).1 }) :
        SessionM (α × Cursor))
      match p.2.misuse with
      | none => return p.1
      | some m => throw m) := rfl

/-- Parsing a text emits what the lexer reports, and then runs the parser. -/
theorem parsingText_run {α : Type} {parser : ParserM α} {s t : Session} {a : α} {c : Cursor}
    (hrun : (parser.task { file := file, rest := (lex file content).1 }).run
      ((Task.emitAll (lex file content).2).run s).2 = ((a, c), t))
    (hmisuse : c.misuse = none) :
    (parsingText parser file content).run.run s = (.ok a, t) ∧
      (parsingText parser file content).run.emitted s = (lex file content).2 ++
        (parser.task { file := file, rest := (lex file content).1 }).emitted
          ((Task.emitAll (lex file content).2).run s).2 := by
  have hlift := SessionM.run_lift (Task.emitAll (lex file content).2) s
  have htask := SessionM.run_lift (parser.task { file := file, rest := (lex file content).1 })
    ((Task.emitAll (lex file content).2).run s).2
  rw [hrun] at htask
  constructor
  · rw [parsingText_eq, SessionM.run_bind hlift, SessionM.run_bind htask]
    simp only [hmisuse]
    rfl
  · rw [parsingText_eq, SessionM.emitted_bind hlift, SessionM.emitted_bind htask,
      SessionM.emitted_lift, SessionM.emitted_lift, Task.emitted_emitAll]
    simp only [hmisuse]
    exact congrArg (_ ++ ·) (List.append_nil _)

/-- What the lexer reports is reported by every parse of the text. -/
theorem lex_subset_emitted {α : Type} (parser : ParserM α) (s : Session) :
    ∀ d ∈ (lex file content).2, d ∈ (parsingText parser file content).run.emitted s := by
  intro d hd
  rw [parsingText_eq, SessionM.emitted_bind (SessionM.run_lift _ _), SessionM.emitted_lift,
    Task.emitted_emitAll]
  exact List.mem_append_left _ hd

theorem severity_of_mem_lex {d : Diagnostic} (h : d ∈ (lex file content).2) :
    d.severity = .error := by
  rw [lex_problems] at h
  obtain ⟨l, -, hl⟩ := List.mem_flatMap.mp h
  obtain ⟨problem, -, rfl⟩ := List.mem_map.mp hl
  rfl

/-- Any text can be parsed from any session. -/
theorem parsingText_alone (file : Nat) (content : String) (s : Session) :
    ∃ text t, (parsingText sourceText file content).run.run s = (.ok text, t) ∧
      text.Alike (Frame.alone content file s t) text ∧
      Forall₂ (Diagnostic.Alike (Span.SameRange content file file))
        ((parsingText sourceText file content).run.emitted s)
        ((parsingText sourceText file content).run.emitted s) ∧
      (parsingText sourceText file content).run.Hits s := by
  rcases hrun : (parsingText sourceText file content).run.run s with ⟨result, t⟩
  have hbroken (hproblems : (lex file content).2 ≠ []) : t.log.errors ≠ s.log.errors := by
    obtain ⟨d, hd⟩ := List.exists_mem_of_ne_nil _ hproblems
    have hne := Task.errors_ne_of_mem (lex_subset_emitted sourceText s d hd)
      (severity_of_mem_lex hd)
    rwa [hrun] at hne
  have hagree : SessionM.Agree
      (Pairing.ofText content file file (t.names.Same t.names) (fun _ _ => False)
        (t.log.errors ≠ s.log.errors))
      (SourceText.Alike (Frame.alone content file s t)) (parsingText sourceText file content)
      (parsingText sourceText file content) :=
    agree_parsingText hbroken (mirror_sourceText trivial)
  obtain ⟨text, rfl, halike, hdiags, hhits⟩ := hagree.run_self hrun {
    name := fun text i j hi hj => ⟨text, hi, hj⟩
    known := nofun
    broken := id }
  exact ⟨text, t, rfl, halike, hdiags, hhits⟩

section Files

variable {sources : Sources} {f : SourceFile} (hf : sources.file file = .ok f) {α : Type}
  (parser : ParserM α) (s : Session)

include hf

/-- Parsing a file of the session is parsing its text. -/
theorem parsing_run :
    (parsing parser sources file).run.run s = (parsingText parser file f.content).run.run s ∧
      (parsing parser sources file).run.emitted s =
        (parsingText parser file f.content).run.emitted s := by
  have hfile : (SessionM.ofExcept (sources.file file)).run.run s = (.ok f, s) := by rw [hf]; rfl
  have hquiet : (SessionM.ofExcept (sources.file file)).run.emitted s = [] := by rw [hf]; rfl
  refine ⟨SessionM.run_bind hfile, ?_⟩
  unfold parsing
  rw [SessionM.emitted_bind hfile, hquiet, List.nil_append]

theorem parsing_hits (h : (parsingText parser file f.content).run.Hits s) :
    (parsing parser sources file).run.Hits s := by
  have hfile : (SessionM.ofExcept (sources.file file)).run.run s = (.ok f, s) := by rw [hf]; rfl
  have hhits : (SessionM.ofExcept (sources.file file)).run.Hits s := by rw [hf]; trivial
  exact SessionM.hits_bind hfile hhits h

/-- Any file can be parsed from any session. -/
theorem parsing_alone :
    ∃ text t, (parsing sourceText sources file).run.run s = (.ok text, t) ∧
      text.Alike (Frame.alone f.content file s t) text ∧
      Forall₂ (Diagnostic.Alike (Span.SameRange f.content file file))
        ((parsing sourceText sources file).run.emitted s)
        ((parsing sourceText sources file).run.emitted s) ∧
      (parsing sourceText sources file).run.Hits s := by
  obtain ⟨text, t, hrun, halike, hdiags, hhits⟩ := parsingText_alone file f.content s
  obtain ⟨hsame, hemitted⟩ := parsing_run hf sourceText s
  refine ⟨text, t, hsame.trans hrun, halike, ?_, parsing_hits hf sourceText s hhits⟩
  rwa [hemitted]

end Files

end Parser

namespace Run

open Lowering (Context)

variable {ctx : Context} {file : Nat} {f : SourceFile}

/-- The names of a tree that was parsed are known from then on. -/
private theorem lowers_alone (hf : ctx.sources.file file = .ok f) {s t u : Session}
    {later : Names} (hmore : t.names.Extends u.names) (hlater : u.names.Extends later) :
    Lowering.Lowers (Frame.alone f.content file s t)
      (Pairing.ofText f.content file file (u.names.Same u.names) (t.names.Same t.names) True)
      (later.Same later) ctx ctx :=
  lowers_ofText hf hf rfl rfl rfl (fun _ _ h => h)
    (fun _ _ h => h.mono (hmore.trans hlater) (hmore.trans hlater))
    (fun _ _ h => h.mono hlater hlater)

/-- Any file can be parsed and lowered from any session. Its modules stay as they are when more
names are entered. -/
theorem file_alone (hf : ctx.sources.file file = .ok f) (s : Session) :
    ∃ modules t, (Run.file ctx file).run.run s = (.ok modules, t) ∧
      (∀ later, t.names.Extends later →
        Forall₂ (Design.Module.Alike (later.Same later) (Span.SameRange f.content file file))
          modules modules) ∧
      Forall₂ (Diagnostic.Alike (Span.SameRange f.content file file))
        ((Run.file ctx file).run.emitted s) ((Run.file ctx file).run.emitted s) ∧
      (Run.file ctx file).run.Hits s := by
  obtain ⟨text, t, hparse, halike, hparsed, hparseHits⟩ := Parser.parsing_alone hf s
  rcases hlower : (Lowering.sourceText ctx text).run.run t with ⟨result, u⟩
  have hmore := Task.extends_of_run hlower
  have hself (later : Names) (hlater : u.names.Extends later) :=
    SessionM.Agree.run_self hlower
      (Lowering.agree_sourceText (lowers_alone hf hmore hlater) faults_alike halike) {
        name := fun text i j hi hj => ⟨text, hi, hj⟩
        known := fun i j h => h
        broken := fun _ => trivial }
  obtain ⟨modules, rfl, -, hlowered, hlowerHits⟩ := hself u.names (.refl _)
  refine ⟨modules, u, (SessionM.run_bind hparse).trans hlower, ?_, ?_, ?_⟩
  · intro later hlater
    obtain ⟨_, heq, hmodules, -⟩ := hself later hlater
    cases heq
    exact hmodules
  · unfold Run.file
    rw [SessionM.emitted_bind hparse]
    exact List.rel_append hparsed hlowered
  · exact SessionM.hits_bind hparse hparseHits hlowerHits

end Run

end Netlist
