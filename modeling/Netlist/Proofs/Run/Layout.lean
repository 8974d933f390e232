import Netlist.Proofs.Run.Placement

/-!
Layout does not matter. Two texts that are lexed without problems into the same words, that is
tokens of the same kinds and texts, are translated to the same modules with the same diagnostics in
the same order; only the places differ. The order of diagnostics depends on where they start, and
every span starts where some token does, so the starts in the one text are ordered as those in the
other.
-/
namespace Netlist

open List (Forall₂)
open Lowering (Context NoticeLevel)

/-- A token without its place. -/
def Token.word (t : Token) : Kind × String := (t.kind, t.text)

/-- The tokens of a text without their places. -/
def words (content : String) : List (Kind × String) := (lex 0 content).1.map Token.word

/-- What is to be seen of an outcome but for the places. -/
def View.unplaced (v : View) : View :=
  ⟨v.modules.map (·.mapSpans fun _ => .dummy), v.diagnostics.map (·.mapSpans fun _ => .dummy)⟩

/-- Spans that begin at corresponding offsets, for a relation of offsets that keeps the order. -/
def Placement.ofOffsets (R : Nat → Nat → Prop)
    (hR : ∀ {a a' b b' : Nat}, R a a' → R b b' → (a ≤ b ↔ a' ≤ b')) : Placement where
  span s s' := (s.file = 0 ∧ s'.file = 0) ∧ R s.start s'.start
  span_file h := h.1
  span_cover := by
    rintro a a' b b' ⟨hfile, ha⟩ ⟨-, hb⟩
    refine ⟨hfile, ?_⟩
    have horder := hR ha hb
    by_cases hle : a.start ≤ b.start
    · have hle' := horder.mp hle
      simpa only [Span.cover, Nat.min_eq_left hle, Nat.min_eq_left hle'] using ha
    · have hlt' : b'.start ≤ a'.start := by omega
      have hlt : b.start ≤ a.start := by omega
      simpa only [Span.cover, Nat.min_eq_right hlt, Nat.min_eq_right hlt'] using hb
  span_atStart h := h

/-- Offsets at which tokens of the same number start. -/
def SameToken (ts ts' : List Token) (n n' : Nat) : Prop :=
  ∃ p ∈ ts.zip ts', p.1.start = n ∧ p.2.start = n'

theorem sameToken_order {ts ts' : List Token} (hts : ts.Pairwise Token.Before)
    (hts' : ts'.Pairwise Token.Before) {a a' b b' : Nat} (ha : SameToken ts ts' a a')
    (hb : SameToken ts ts' b b') : a ≤ b ↔ a' ≤ b' := by
  have hbefore (i j : Nat) (hi : i < (ts.zip ts').length) (hj : j < (ts.zip ts').length)
      (hlt : i < j) : (ts.zip ts')[i].1.start < (ts.zip ts')[j].1.start ∧
        (ts.zip ts')[i].2.start < (ts.zip ts')[j].2.start := by
    have hlength : (ts.zip ts').length = min ts.length ts'.length := List.length_zip
    rw [List.pairwise_iff_getElem] at hts hts'
    simp only [List.getElem_zip]
    exact ⟨(hts i j (by omega) (by omega) hlt).start, (hts' i j (by omega) (by omega) hlt).start⟩
  obtain ⟨p, hp, rfl, rfl⟩ := ha
  obtain ⟨q, hq, rfl, rfl⟩ := hb
  obtain ⟨i, hi, rfl⟩ := List.mem_iff_getElem.mp hp
  obtain ⟨j, hj, rfl⟩ := List.mem_iff_getElem.mp hq
  rcases Nat.lt_trichotomy i j with hlt | rfl | hlt
  · have hstart := hbefore i j hi hj hlt
    omega
  · omega
  · have hstart := hbefore j i hj hi hlt
    omega

/-- The placement of two texts by the numbers of their tokens. -/
def Placement.byNumber (content content' : String) : Placement :=
  .ofOffsets (SameToken (lex 0 content).1 (lex 0 content').1)
    (sameToken_order (pairwise_lex 0 content) (pairwise_lex 0 content'))

theorem byNumber_order {content content' : String} (s s' u u' : Span)
    (hs : (Placement.byNumber content content').span s s')
    (hu : (Placement.byNumber content content').span u u') :
    s.start ≤ u.start ↔ s'.start ≤ u'.start :=
  sameToken_order (pairwise_lex 0 content) (pairwise_lex 0 content') hs.2 hu.2

theorem tokens_byNumber {content content' : String} (h : words content = words content') :
    Forall₂ (Placement.byNumber content content').Tokens (lex 0 content).1 (lex 0 content').1 := by
  have hlength : (lex 0 content).1.length = (lex 0 content').1.length := by
    have hlength := congrArg List.length h
    rwa [words, words, List.length_map, List.length_map] at hlength
  rw [List.forall₂_iff_get]
  refine ⟨hlength, fun n hn hn' => ?_⟩
  have hword : ((lex 0 content).1.get ⟨n, hn⟩).word = ((lex 0 content').1.get ⟨n, hn'⟩).word := by
    have hget := congrArg (·[n]?) h
    simpa [words, hn, hn'] using hget
  refine ⟨congrArg Prod.fst hword, congrArg Prod.snd hword, ⟨rfl, rfl⟩, ?_⟩
  refine ⟨((lex 0 content).1.get ⟨n, hn⟩, (lex 0 content').1.get ⟨n, hn'⟩), ?_, rfl, rfl⟩
  rw [List.mem_iff_getElem]
  exact ⟨n, by rw [List.length_zip]; omega, by simp⟩

namespace Run

section Texts

variable {ctx ctx' : Context} {f f' : SourceFile} (hf : ctx.sources.file 0 = .ok f)
  (hf' : ctx'.sources.file 0 = .ok f') {S : Placement}
  (htokens : Forall₂ S.Tokens (lex 0 f.content).1 (lex 0 f'.content).1)
  (hclean : (lex 0 f.content).2 = []) (hclean' : (lex 0 f'.content).2 = [])

include hf hf' htokens hclean hclean'

/-- Texts with the same tokens are parsed to trees that are alike. -/
theorem parsed_ofPlacement :
    ∃ text t text' t',
      (Parser.parsing Parser.sourceText ctx.sources 0).run.run {} = (.ok text, t) ∧
      (Parser.parsing Parser.sourceText ctx'.sources 0).run.run {} = (.ok text', t') ∧
      text.Alike (Frame.ofPlacement S ctx.sources ctx'.sources 0 (t.names.Same t'.names)) text' ∧
      Forall₂ (Diagnostic.Alike S.span)
        ((Parser.parsing Parser.sourceText ctx.sources 0).run.emitted {})
        ((Parser.parsing Parser.sourceText ctx'.sources 0).run.emitted {}) := by
  rcases hrun : (Parser.sourceText.task { file := 0, rest := (lex 0 f.content).1 }).run {} with
    ⟨⟨text, c⟩, t⟩
  rcases hrun' : (Parser.sourceText.task { file := 0, rest := (lex 0 f'.content).1 }).run {} with
    ⟨⟨text', c'⟩, t'⟩
  have hcursors : (Frame.ofPlacement S ctx.sources ctx'.sources 0 (t.names.Same t'.names)).Cursors
      { file := 0, rest := (lex 0 f.content).1 } { file := 0, rest := (lex 0 f'.content).1 } := {
    file := rfl
    file' := rfl
    rest := tokens_ofPlacement hf hf' htokens (fun _ ht => ht) fun _ ht => ht
    prev := .none
    consumed := rfl
    errors := rfl
    faulty := fun _ => trivial
    started := fun _ => rfl
    abreast := fun _ => rfl
    origin := fun hnil _ => absurd hnil (by simp [lex_tokens])
    misuse := rfl
    misuse' := rfl }
  have hpaired := (Parser.mirror_sourceText trivial).paired
    (serves_ofPlacement fun _ _ => False) hcursors
  have hboth := hpaired.run (by
    rw [hrun, hrun']
    exact holds_ofPlacement fun _ _ h => h.elim)
  rw [hrun, hrun'] at hboth
  obtain ⟨⟨halike, hafter⟩, hdiags, -⟩ := hboth
  have hstart (content : String) (hnone : (lex 0 content).2 = []) :
      ((Task.emitAll (lex 0 content).2).run {}).2 = {} := by rw [hnone]; rfl
  rw [← hstart f.content hclean] at hrun
  rw [← hstart f'.content hclean'] at hrun'
  obtain ⟨hparse, hemitted⟩ := Parser.parsingText_run hrun hafter.misuse
  obtain ⟨hparse', hemitted'⟩ := Parser.parsingText_run hrun' hafter.misuse'
  obtain ⟨hfile, hfileEmitted⟩ := Parser.parsing_run hf Parser.sourceText {}
  obtain ⟨hfile', hfileEmitted'⟩ := Parser.parsing_run hf' Parser.sourceText {}
  refine ⟨text, t, text', t', hfile.trans hparse, hfile'.trans hparse', halike, ?_⟩
  rw [hfileEmitted, hfileEmitted', hemitted, hemitted', hstart f.content hclean,
    hstart f'.content hclean', hclean, hclean', List.nil_append, List.nil_append]
  exact hdiags

/-- Texts with the same tokens give modules that are alike. -/
theorem file_ofPlacement (hlevel : ctx.level = ctx'.level) :
    ∃ modules t modules' t',
      (file ctx 0).run.run {} = (.ok modules, t) ∧ (file ctx' 0).run.run {} = (.ok modules', t') ∧
      Forall₂ (Design.Module.Alike (t.names.Same t'.names) S.span) modules modules' ∧
      Forall₂ (Diagnostic.Alike S.span) t.log.held.toList t'.log.held.toList := by
  obtain ⟨text, s, text', s', hparse, hparse', halike, hparsed⟩ :=
    parsed_ofPlacement hf hf' htokens hclean hclean'
  obtain ⟨modules, t, modules', t', hlower, hlower', hmodules, hlowered⟩ :=
    lowered_ofPlacement hlevel halike.units (.refl s.names) (.refl s'.names)
  have hrun : (file ctx 0).run.run {} = (.ok modules, t) := (SessionM.run_bind hparse).trans hlower
  have hrun' : (file ctx' 0).run.run {} = (.ok modules', t') :=
    (SessionM.run_bind hparse').trans hlower'
  refine ⟨modules, t, modules', t', hrun, hrun', hmodules _ _ (.refl _) (.refl _), ?_⟩
  rw [held_single hrun, held_single hrun', file, file, SessionM.emitted_bind hparse,
    SessionM.emitted_bind hparse', Lowering.sourceText, Lowering.sourceText]
  exact List.rel_append hparsed hlowered

end Texts

/-- Diagnostics are sorted alike in both texts, if the placement keeps the order. -/
theorem sorted_ofPlacement {S : Placement}
    (hS : ∀ s s' u u', S.span s s' → S.span u u' → (s.start ≤ u.start ↔ s'.start ≤ u'.start))
    {ds ds' : List Diagnostic} (h : Forall₂ (Diagnostic.Alike S.span) ds ds') :
    Forall₂ (Diagnostic.Alike S.span) (ds.mergeSort (inOrder 1)) (ds'.mergeSort (inOrder 1)) := by
  apply forall₂_mergeSort h
  intro d d' e e' hd he
  obtain ⟨hfile, hfile'⟩ := S.span_file hd.span
  obtain ⟨hother, hother'⟩ := S.span_file he.span
  have horder := hS _ _ _ _ hd.span he.span
  have hrank : rank 1 d = 1 ∧ rank 1 d' = 1 ∧ rank 1 e = 1 ∧ rank 1 e' = 1 := by
    simp [rank, hfile, hfile', hother, hother']
  rw [Bool.eq_iff_iff, inOrder_iff, inOrder_iff, hrank.1, hrank.2.1, hrank.2.2.1, hrank.2.2.2]
  omega

/-- Two texts with the same words are translated alike: they differ only in places. -/
theorem texts_layout (path path' : String) {content content' : String} (level : NoticeLevel)
    (hclean : (lex 0 content).2 = []) (hclean' : (lex 0 content').2 = [])
    (hwords : words content = words content') :
    ∃ o v o' v', texts [(path, content)] level = .ok o ∧ o.view = .ok v ∧
      texts [(path', content')] level = .ok o' ∧ o'.view = .ok v' ∧ v.unplaced = v'.unplaced := by
  have hf : (context [(path, content)] level).sources.file 0 = .ok ⟨path, content⟩ :=
    file_context (f := (path, content)) rfl
  have hf' : (context [(path', content')] level).sources.file 0 = .ok ⟨path', content'⟩ :=
    file_context (f := (path', content')) rfl
  obtain ⟨modules, t, modules', t', hrun, hrun', hmodules, hdiags⟩ :=
    file_ofPlacement hf hf' (tokens_byNumber hwords) hclean hclean' rfl
  obtain ⟨vs, vs', hvs, hvs', hsame⟩ :=
    modules_mapSpans (f := fun _ => .dummy) (g := fun _ => .dummy) (fun _ _ _ => rfl) hmodules
  have hview {path content : String} {modules : List Design.Module} {t : Session}
      {vs : List Design.ShownModule} (hvs : modules.mapM (·.shown t.names) = .ok vs) :
      (outcome (context [(path, content)] level) [modules] t).view =
        .ok ⟨vs, t.log.held.toList.mergeSort (inOrder 1)⟩ := by
    simp only [Outcome.view, outcome, List.flatten_singleton, hvs, size_context]
    rfl
  refine ⟨_, _, _, _, all_single size_context hrun, hview hvs, all_single size_context hrun',
    hview hvs', ?_⟩
  have hsorted := sorted_ofPlacement byNumber_order hdiags
  have hplaces : (t.log.held.toList.mergeSort (inOrder 1)).map (·.mapSpans fun _ => .dummy) =
      (t'.log.held.toList.mergeSort (inOrder 1)).map (·.mapSpans fun _ => .dummy) := by
    rw [← List.forall₂_eq_eq_eq, List.forall₂_map_left_iff, List.forall₂_map_right_iff]
    exact hsorted.imp fun _ _ hd => hd.mapSpans fun _ _ _ => rfl
  simp only [View.unplaced, hsame, hplaces]

theorem texts_layout_comment :
    ∃ o v o' v', texts [("a.sv", "module m;\n  foo u(x);\nendmodule")] .warning = .ok o ∧
      o.view = .ok v ∧
      texts [("b.sv", "module m; foo/**/u (x) ; endmodule")] .warning = .ok o' ∧
      o'.view = .ok v' ∧ v.unplaced = v'.unplaced :=
  texts_layout "a.sv" "b.sv" .warning (by decide +kernel) (by decide +kernel) (by decide +kernel)

end Run

end Netlist
