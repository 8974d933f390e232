import Netlist.Proofs.Parser.Accepts.Instantiation
import Netlist.Proofs.Parser.Ensures.Instantiation
import Netlist.Proofs.Parser.Sentences
import Netlist.Proofs.Run.Alone

/-!
Texts that hold one statement. The parser of a whole text gives a statement just if the lexer has
found nothing wrong and the tokens before the end are a sentence of the grammar; then they are a
sentence for that statement, and for no other.
-/
namespace Netlist.Parser

open Syntax

variable {α : Type} {file : Nat} {content : String}

/-- A text is parsed without an error just if neither the lexer nor the parser has one. -/
theorem parsingText_errors {x : ParserM α} {Q : α → α → Prop}
    (hx : Mirror (Frame.ofFile file) Q x x) (content : String) (s : Session) :
    ∃ a c t, (x.task (.between file [] (lex file content).1)).run
        ((Task.emitAll (lex file content).2).run s).2 = ((a, c), t) ∧
      (parsingText x file content).run.run s = (.ok a, t) ∧
      (t.log.errors = s.log.errors ↔ (lex file content).2 = [] ∧
        (x.task (.between file [] (lex file content).1)).emitted s = []) := by
  rcases hrun : (x.task (.between file [] (lex file content).1)).run
    ((Task.emitAll (lex file content).2).run s).2 with ⟨⟨a, c⟩, t⟩
  have hmisuse := misuse_between hx [] (lex file content).1
    ((Task.emitAll (lex file content).2).run s).2
  rw [hrun] at hmisuse
  obtain ⟨hparse, hemitted⟩ := parsingText_run hrun hmisuse
  refine ⟨a, c, t, rfl, hparse, ?_⟩
  have herrors := Task.errors_run (parsingText x file content).run s
  rw [hparse, hemitted, List.countP_append] at herrors
  have hlex : (lex file content).2.countP (fun d => d.severity = .error) =
      (lex file content).2.length :=
    List.countP_eq_length.mpr fun d hd => by simpa using severity_of_mem_lex hd
  have htask : ∀ s', ((x.task (.between file [] (lex file content).1)).emitted s').countP
      (fun d => d.severity = .error) =
      ((x.task (.between file [] (lex file content).1)).emitted s').length := fun s' =>
    List.countP_eq_length.mpr fun d hd => by simpa using severity_of_mem_task hd
  have htotal : t.log.errors = s.log.errors + ((lex file content).2.length +
      ((x.task (.between file [] (lex file content).1)).emitted
        ((Task.emitAll (lex file content).2).run s).2).length) := by
    rw [← hlex, ← htask]
    exact herrors
  constructor
  · intro hsame
    have hnone : (lex file content).2 = [] := List.length_eq_zero_iff.mp (by omega)
    rw [hnone] at htotal
    refine ⟨hnone, List.length_eq_zero_iff.mp ?_⟩
    change t.log.errors = s.log.errors + (0 +
      ((x.task (.between file [] (lex file content).1)).emitted s).length) at htotal
    omega
  · rintro ⟨hnone, hquiet⟩
    rw [hnone] at htotal
    change t.log.errors = s.log.errors + (0 +
      ((x.task (.between file [] (lex file content).1)).emitted s).length) at htotal
    rw [hquiet] at htotal
    exact htotal

/-- Without diagnostics no token is broken. -/
theorem kind_ne_error (hclean : (lex file content).2 = []) {t : Token}
    (ht : t ∈ (lex file content).1) : t.kind ≠ .error := by
  rw [lex_tokens, List.mem_append] at ht
  rcases ht with ht | ht
  · intro herror
    obtain ⟨l, hl, ht⟩ := List.mem_filterMap.mp ht
    obtain ⟨kind, hkind, rfl⟩ := Option.map_eq_some_iff.mp ht
    exact Lexeme.problems_of_error hl (hkind.trans (congrArg some herror))
      (Lexeme.problems_of_clean hl hclean)
  · obtain rfl := List.mem_singleton.mp ht
    nofun

theorem mirror_soleInstantiation {F : Frame} :
    Mirror F (Instantiation.Alike F) soleInstantiation soleInstantiation := by
  refine Mirror.bind mirror_instantiation fun stmt stmt' hstmt => ?_
  refine Mirror.bindEq (mirror_sees .eof) fun ended => ?_
  cases ended with
  | true => exact .pure hstmt
  | false => exact Mirror.bind (mirror_report nofun) fun _ _ _ => .pure hstmt

theorem accepts_soleInstantiation {W : Writing} {stmt : Instantiation} {ts rest : List Token}
    (h : stmt.Sentence W ts) (hrest : headKind rest = .eof) :
    Accepts file soleInstantiation ts rest fun N stmt' =>
      stmt.Same (W.names N) (W.spans file) stmt' := by
  refine (accepts_instantiation h).last fun stmt' => .seesKind hrest ?_
  exact .pure fun N hsame => hsame

theorem ensures_soleInstantiation {N : Names} {r : List Token} :
    Ensures file N r soleInstantiation fun stmt ts r' =>
      stmt.Sentence (.ofNames N file) ts ∧ headKind r' = .eof := by
  refine ensures_instantiation.bind fun stmt us r₁ _ hstmt => .sees (fun hend => ?_) fun _ => ?_
  · refine .pure ⟨?_, hend⟩
    rwa [List.append_nil]
  · exact .report

/-- A parser that stops at the end of a text has consumed all tokens before it. -/
theorem eq_dropLast {taken rest : List Token} (hall : (lex file content).1 = taken ++ rest)
    (hinner : ∀ t ∈ taken, t.kind ≠ .eof) (hrest : headKind rest = .eof) :
    taken = (lex file content).1.dropLast := by
  cases rest with
  | nil =>
    rw [List.append_nil, lex_dropLast] at hall
    refine absurd rfl (hinner (Token.endAt (Text.byteLength content.toList)) ?_)
    rw [← hall]
    exact List.mem_append_right _ (List.mem_singleton_self _)
  | cons t rest =>
    have hpairs := pairwise_lex file content
    rw [hall, List.pairwise_append, List.pairwise_cons] at hpairs
    cases rest with
    | nil => rw [hall, List.dropLast_concat]
    | cons u rest => exact absurd hrest (hpairs.2.1.1 u List.mem_cons_self).inner

/-- The tokens of a statement are parsed to the same statement. -/
theorem soleInstantiation_of_sentence {W : Writing} {stmt : Instantiation}
    (h : stmt.Sentence W (lex file content).1.dropLast) (s : Session) :
    ∃ stmt' c t,
      (soleInstantiation.task (.between file [] (lex file content).1)).run s = ((stmt', c), t) ∧
      (soleInstantiation.task (.between file [] (lex file content).1)).emitted s = [] ∧
      stmt.Same (W.names t.names) (W.spans file) stmt' := by
  have haccepts : Accepts file soleInstantiation _
      [Token.endAt (Text.byteLength content.toList)] _ := accepts_soleInstantiation h rfl
  obtain ⟨stmt', c, t, hreads, hsame⟩ :=
    haccepts (.between file [] (lex file content).1) s rfl (lex_dropLast file content)
  exact ⟨stmt', c, t, hreads.run, hreads.quiet, hsame t.names (.refl _)⟩

/-- What is parsed without an error takes all tokens. -/
theorem reads_soleInstantiation {stmt : Instantiation} {c : Cursor} {s t : Session}
    (hclean : (lex file content).2 = [])
    (hrun : (soleInstantiation.task (.between file [] (lex file content).1)).run s = ((stmt, c), t))
    (hquiet : (soleInstantiation.task (.between file [] (lex file content).1)).emitted s = []) :
    Reads soleInstantiation (.between file [] (lex file content).1) s
      (lex file content).1.dropLast stmt c t := by
  obtain ⟨taken, hpasses⟩ :=
    Cursor.Passes.exists_run soleInstantiation (.between file [] (lex file content).1) s
  rw [hrun] at hpasses
  have hall : (lex file content).1 = taken ++ c.rest := hpasses.rest
  have hbroken : ∀ u ∈ taken, u.kind ≠ .error := by
    intro u hu
    refine kind_ne_error hclean ?_
    rw [hall]
    exact List.mem_append_left _ hu
  have hreads : Reads soleInstantiation (.between file [] (lex file content).1) s taken stmt c t :=
    ⟨hrun, hquiet, hall, hbroken⟩
  obtain ⟨-, hend⟩ := ensures_soleInstantiation _ s taken stmt c t rfl rfl hreads (.refl _)
  exact hreads.cast (eq_dropLast hall hpasses.inner hend)

/-- What is parsed without an error is a statement of all tokens. -/
theorem sentence_of_soleInstantiation {stmt : Instantiation} {c : Cursor} {s t : Session}
    (hclean : (lex file content).2 = [])
    (hrun : (soleInstantiation.task (.between file [] (lex file content).1)).run s = ((stmt, c), t))
    (hquiet : (soleInstantiation.task (.between file [] (lex file content).1)).emitted s = []) :
    stmt.Sentence (.ofNames t.names file) (lex file content).1.dropLast :=
  (ensures_soleInstantiation _ s _ stmt c t rfl rfl (reads_soleInstantiation hclean hrun hquiet)
    (.refl _)).1

/-- Tokens that some statement is written with. What names and literals stand for is left open, so
only the kinds of the tokens count. -/
def IsStatement (ts : List Token) : Prop := ∃ W stmt, Instantiation.Sentence W stmt ts

/-- A text is accepted as one statement just if its lexemes are fine and its tokens are written for
a statement. They are then written for the statement that is given, names by the index of their text
and literals by their place; and any statement they are written for is the same one. -/
theorem parseInstantiation_sentence {sources : Sources} {f : SourceFile}
    (hf : sources.file file = .ok f) (s : Session) :
    ∃ result t, parseInstantiation sources file s = .ok (result, t) ∧
      (result.isSome = true ↔
        (lex file f.content).2 = [] ∧ IsStatement (lex file f.content).1.dropLast) ∧
      ∀ stmt, result = some stmt →
        stmt.Sentence (.ofNames t.names file) (lex file f.content).1.dropLast ∧
        ∀ W stmt', Instantiation.Sentence W stmt' (lex file f.content).1.dropLast →
          stmt'.Same (W.names t.names) (W.spans file) stmt := by
  obtain ⟨stmt, c, t, hrun, hparse, herrors⟩ :=
    parsingText_errors mirror_soleInstantiation f.content s
  have hresult : parseInstantiation sources file s =
      .ok (if t.log.errors = s.log.errors then some stmt else none, t) := by
    unfold parseInstantiation
    rw [(parsing_run hf soleInstantiation s).1, hparse]
    rfl
  -- Without lexical errors the parser starts from the session as it is.
  have hstart (hclean : (lex file f.content).2 = []) :
      (soleInstantiation.task (.between file [] (lex file f.content).1)).run s =
        ((stmt, c), t) := by
    rw [hclean] at hrun
    exact hrun
  refine ⟨_, t, hresult, ?_, ?_⟩
  · rw [Option.isSome_ite, herrors]
    constructor
    · rintro ⟨hclean, hquiet⟩
      exact ⟨hclean, _, stmt, sentence_of_soleInstantiation hclean (hstart hclean) hquiet⟩
    · rintro ⟨hclean, W, stmt', hstmt'⟩
      obtain ⟨_, _, _, -, hquiet, -⟩ := soleInstantiation_of_sentence hstmt' s
      exact ⟨hclean, hquiet⟩
  · intro given hgiven
    by_cases hsame : t.log.errors = s.log.errors
    · rw [if_pos hsame] at hgiven
      cases hgiven
      obtain ⟨hclean, hquiet⟩ := herrors.mp hsame
      refine ⟨sentence_of_soleInstantiation hclean (hstart hclean) hquiet, ?_⟩
      intro W stmt' hstmt'
      obtain ⟨stmt'', c', t', hrun', -, hsame'⟩ := soleInstantiation_of_sentence hstmt' s
      cases (hstart hclean).symm.trans hrun'
      exact hsame'
    · rw [if_neg hsame] at hgiven
      cases hgiven

theorem parseInstantiation_sentence_blank :
    ∃ result t, parseInstantiation (Sources.ofList [("a.sv", "m u(, .x);")]) 0 {} =
        .ok (result, t) ∧
      (result.isSome = true ↔
        (lex 0 "m u(, .x);").2 = [] ∧ IsStatement (lex 0 "m u(, .x);").1.dropLast) ∧
      ∀ stmt, result = some stmt →
        stmt.Sentence (.ofNames t.names 0) (lex 0 "m u(, .x);").1.dropLast ∧
        ∀ W stmt', Instantiation.Sentence W stmt' (lex 0 "m u(, .x);").1.dropLast →
          stmt'.Same (W.names t.names) (W.spans 0) stmt :=
  have hf : (Sources.ofList [("a.sv", "m u(, .x);")]).file 0 = .ok ⟨"a.sv", "m u(, .x);"⟩ := rfl
  parseInstantiation_sentence hf {}

end Netlist.Parser
