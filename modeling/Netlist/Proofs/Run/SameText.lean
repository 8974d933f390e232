import Netlist.Run
import Netlist.Proofs.Lowering.Module
import Netlist.Proofs.Lowering.Number
import Netlist.Proofs.Parser.Mirror.Unit

/-!
One text as a file of two sessions. Parsing and lowering it go hand in hand on both sides: spans are
the same ranges of the text, names have the same texts, and the diagnostics differ only in the
number of the file.
-/
namespace Netlist

open List (Forall₂)

variable {content : String} {file file' : Nat}

/-- Spans of two files with one text that cover the same range of it. -/
structure Span.SameRange (content : String) (file file' : Nat) (s s' : Span) : Prop where
  file : s.file = file
  file' : s'.file = file'
  start : s.start = s'.start
  stop : s.stop = s'.stop
  ordered : s.start ≤ s.stop
  inside : s.stop ≤ Text.byteLength content.toList

theorem Span.SameRange.cover {a a' b b' : Span} (ha : a.SameRange content file file' a')
    (hb : b.SameRange content file file' b') :
    (a.cover b).SameRange content file file' (a'.cover b') where
  file := ha.file
  file' := ha.file'
  start := by simp only [Span.cover, ha.start, hb.start]
  stop := by simp only [Span.cover, ha.stop, hb.stop]
  ordered := by
    have hordered := ha.ordered
    simp only [Span.cover]
    omega
  inside := by
    have hinside := ha.inside
    have hinsideb := hb.inside
    simp only [Span.cover]
    omega

theorem Span.SameRange.atStart {s s' : Span} (h : s.SameRange content file file' s') :
    s.atStart.SameRange content file file' s'.atStart where
  file := h.file
  file' := h.file'
  start := h.start
  stop := h.start
  ordered := Nat.le_refl _
  inside := Nat.le_trans h.ordered h.inside

/-- What corresponds between two parses of one text, given which names do. -/
def Frame.ofText (content : String) (file file' : Nat) (name : Nat → Nat → Prop)
    (broken opens : Prop) : Frame where
  file := file
  file' := file'
  name _ := name
  span := Span.SameRange content file file'
  leaf kind text s s' :=
    s.SameRange content file file' s' ∧
      Text.slice? s.start s.stop content.toList = some text.toList ∧
      (kind.IsNumber → broken ∨ Piece.NumberText text.toList)
  broken := broken
  flaw _ _ := broken
  opens := opens
  span_file h := ⟨h.file, h.file'⟩
  span_cover ha hb := ha.cover hb
  span_atStart h := h.atStart
  flaw_of_broken h := h

/-- Diagnostics that differ only in where they point, without labels. -/
structure Diagnostic.Alike (S : Span → Span → Prop) (d d' : Diagnostic) : Prop where
  span : S d.span d'.span
  same : d = { d' with span := d.span }
  labels : d.labels = []

def Pairing.ofText (content : String) (file file' : Nat) (name known : Nat → Nat → Prop)
    (broken : Prop) : Pairing where
  name _ := name
  known := known
  diag := Diagnostic.Alike (Span.SameRange content file file')
  broken := broken

section Tokens

variable {name : Nat → Nat → Prop} {broken opens : Prop}

private theorem lexeme_alike (hbroken : (lex file content).2 ≠ [] → broken) {l : Lexeme}
    {kind : Kind} (hl : l ∈ Lexeme.ofText content.toList) (hkind : l.kind = some kind) :
    (Frame.ofText content file file' name broken opens).Tokens
      ⟨kind, String.ofList l.text, l.start, l.stop⟩
      ⟨kind, String.ofList l.text, l.start, l.stop⟩ := by
  have hspan : Span.SameRange content file file' ⟨file, l.start, l.stop⟩
      ⟨file', l.start, l.stop⟩ :=
    ⟨rfl, rfl, rfl, rfl, Nat.le_add_right _ _, Lexeme.stop_le hl⟩
  have hslice : Text.slice? l.start l.stop content.toList =
      some (String.ofList l.text).toList := by
    rw [String.toList_ofList, Lexeme.slice?_eq hl]
  have hnumber (h : kind.IsNumber) : broken ∨ Piece.NumberText (String.ofList l.text).toList := by
    by_cases hclean : (lex file content).2 = []
    · have hliteral : l.kind = some .intLiteral ∨ l.kind = some .sizedLiteral ∨
          l.kind = some .fillLiteral := by
        rcases h with rfl | rfl | rfl <;> simp [hkind]
      rw [String.toList_ofList]
      exact .inr (Lexeme.numberText_of_clean hl hliteral (Lexeme.problems_of_clean hl hclean))
    · exact .inl (hbroken hclean)
  have herror (h : kind = .error) : broken := by
    apply hbroken
    intro hclean
    exact Lexeme.problems_of_error hl (h ▸ hkind) (Lexeme.problems_of_clean hl hclean)
  exact ⟨rfl, rfl, hspan, ⟨hspan, hslice, hnumber⟩, herror⟩

private theorem end_alike :
    (Frame.ofText content file file' name broken opens).Tokens
      (Token.endAt (Text.byteLength content.toList))
      (Token.endAt (Text.byteLength content.toList)) := by
  have hspan : Span.SameRange content file file'
      ⟨file, Text.byteLength content.toList, Text.byteLength content.toList⟩
      ⟨file', Text.byteLength content.toList, Text.byteLength content.toList⟩ :=
    ⟨rfl, rfl, rfl, rfl, Nat.le_refl _, Nat.le_refl _⟩
  have hslice : Text.slice? (Text.byteLength content.toList) (Text.byteLength content.toList)
      content.toList = some "".toList := by
    have hempty := Text.slice?_append content.toList [] []
    rwa [List.append_nil, List.append_nil] at hempty
  exact ⟨rfl, rfl, hspan, ⟨hspan, hslice, by rintro (h | h | h) <;> cases h⟩, nofun⟩

/-- Every token of a text corresponds to itself. -/
theorem tokens_alike (hbroken : (lex file content).2 ≠ [] → broken) :
    Forall₂ (Frame.ofText content file file' name broken opens).Tokens (lex file content).1
      (lex file' content).1 := by
  rw [lex_tokens, lex_tokens, List.forall₂_same]
  intro t ht
  rcases List.mem_append.mp ht with ht | ht
  · obtain ⟨l, hl, htoken⟩ := List.mem_filterMap.mp ht
    obtain ⟨kind, hkind, rfl⟩ := Option.map_eq_some_iff.mp htoken
    exact lexeme_alike hbroken hl hkind
  · obtain rfl := List.mem_singleton.mp ht
    exact end_alike

/-- The problems of a text are reported alike for both files. -/
theorem problems_alike :
    Forall₂ (Diagnostic.Alike (Span.SameRange content file file')) (lex file content).2
      (lex file' content).2 := by
  rw [lex_problems, lex_problems]
  refine List.rel_flatMap (R := fun l l' => l = l' ∧ l.stop ≤ Text.byteLength content.toList)
    (List.forall₂_same.mpr fun l hl => ⟨rfl, Lexeme.stop_le hl⟩) ?_
  rintro l _ ⟨rfl, hstop⟩
  unfold Lexeme.diagnostics
  rw [List.forall₂_map_left_iff, List.forall₂_map_right_iff, List.forall₂_same]
  intro problem _
  have hle : l.start ≤ l.stop := Nat.le_add_right _ _
  refine ⟨⟨rfl, rfl, rfl, rfl, ?_, hstop⟩, rfl, rfl⟩
  simp only [Problem.diagnostic]
  split <;> omega

end Tokens

section Work

variable {name known : Nat → Nat → Prop} {broken opens : Prop}

theorem paired_emitAll {P : Pairing} {ds ds' : List Diagnostic} (h : Forall₂ P.diag ds ds') :
    Paired P (fun _ _ => True) (Task.emitAll ds) (Task.emitAll ds') := by
  induction h with
  | nil => exact .pure trivial
  | cons hd hds ih => exact .bind (Q := fun _ _ => True) (.emit hd fun _ => trivial) fun _ _ _ => ih

theorem serves_ofText : Parser.Serves (Frame.ofText content file file' name broken opens)
    (Pairing.ofText content file file' name known broken) where
  name := fun _ _ _ h => h
  broken := fun h => h
  diag := fun _ _ _ h => ⟨h, rfl, rfl⟩

/-- Parsing the text with a parser that mirrors itself. -/
theorem agree_parsingText {α : Type} {R : α → α → Prop} {parser : Parser.ParserM α}
    (hbroken : (lex file content).2 ≠ [] → broken)
    (hparser : Parser.Mirror (Frame.ofText content file file' name broken opens) R parser parser) :
    SessionM.Agree (Pairing.ofText content file file' name known broken) R
      (Parser.parsingText parser file content) (Parser.parsingText parser file' content) := by
  refine .bind (.lift (paired_emitAll problems_alike)) fun _ _ _ => ?_
  have hstart : (Frame.ofText content file file' name broken opens).Cursors
      { file := file, rest := (lex file content).1 }
      { file := file', rest := (lex file' content).1 } :=
    { file := rfl, file' := rfl, rest := tokens_alike hbroken, prev := .none, consumed := rfl
      errors := rfl, faulty := fun h => absurd rfl h, started := fun _ => rfl
      abreast := fun _ => rfl
      origin := fun _ _ => ⟨rfl, rfl, rfl, rfl, Nat.le_refl _, Nat.zero_le _⟩
      misuse := rfl, misuse' := rfl }
  refine .bind (.lift (hparser.paired serves_ofText hstart)) fun p q hpq => ?_
  obtain ⟨a, c⟩ := p
  obtain ⟨a', c'⟩ := q
  have hmisuse : c.misuse = none := hpq.2.misuse
  have hmisuse' : c'.misuse = none := hpq.2.misuse'
  simp only [hmisuse, hmisuse']
  exact .pure hpq.1

end Work

section Lowering

open Lowering (Context Lowers)

variable {name name' known N : Nat → Nat → Prop} {broken broken' opens : Prop}
  {ctx ctx' : Context} {f f' : SourceFile}

theorem snippet_eq {sources : Sources} {s : Span} {text : String}
    (hf : sources.file s.file = .ok f) (hslice : f.slice? s.start s.stop = some text) :
    sources.snippet s = .ok text := by
  simp only [Sources.snippet, hf, bind, Except.bind, hslice]

/-- Tokens have the texts of their spans. -/
theorem snippet_of_mem_lex {sources : Sources} {t : Token}
    (hf : sources.file file = .ok f) (ht : t ∈ (lex file f.content).1) :
    sources.snippet (t.span file) = .ok t.text := by
  have hslice := slice?_of_mem_lex ht
  refine snippet_eq hf ?_
  show (Text.slice? t.start t.stop f.chars).map String.ofList = some t.text
  rw [SourceFile.chars, hslice, Option.map_some, String.ofList_toList]

/-- The text serves a lowering on both sides. -/
theorem lowers_ofText (hf : ctx.sources.file file = .ok f) (hf' : ctx'.sources.file file' = .ok f')
    (hcontent : f.content = content) (hcontent' : f'.content = content)
    (hlevel : ctx.level = ctx'.level) (hknown : ∀ i j, name i j → known i j)
    (hkept : ∀ i j, name i j → N i j) (hentered : ∀ i j, name' i j → N i j) :
    Lowers (Frame.ofText content file file' name broken opens)
      (Pairing.ofText content file file' name' known broken') N ctx ctx' where
  known := fun _ => hknown
  kept := fun _ => hkept
  entered := fun _ => hentered
  flaw h := h
  text := by
    rintro kind text s s' ⟨hrange, hslice, -⟩
    have hsame {g : SourceFile} (hg : g.content = content) :
        g.slice? s.start s.stop = some text := by
      rw [SourceFile.slice?, SourceFile.chars, hg, hslice, Option.map_some, String.ofList_toList]
    constructor
    · exact snippet_eq (hrange.file ▸ hf) (hsame hcontent)
    · exact snippet_eq (hrange.file' ▸ hf') (hrange.start ▸ hrange.stop ▸ hsame hcontent')
  number := by
    rintro kind text s s' hkind ⟨-, -, hnumber⟩
    exact hnumber hkind
  notice := by
    intro label s s' hs
    exact ⟨hs, by rw [hlevel]; rfl, rfl⟩

theorem faults_alike (g g' : Lowering.Fault)
    (h : g.Alike (Frame.ofText content file file' name broken opens) g') :
    Diagnostic.Alike (Span.SameRange content file file') g.diagnostic g'.diagnostic := by
  cases h with
  | malformed hs => exact ⟨hs, rfl, rfl⟩

end Lowering

end Netlist
