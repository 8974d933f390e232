import Netlist.Proofs.Lowering.Module
import Netlist.Proofs.Lowering.Settled
import Netlist.Proofs.Parser.Embedding
import Netlist.Proofs.Run.Openings
import Netlist.Proofs.Run.Statements

/-!
Statements by themselves and in a module. A text that is accepted as one statement may be put among
others into a module, each on lines of its own: the module has just the items of these statements,
and its instances are those that each statement gives by itself. Only the places differ and the
indices of the names.
-/
namespace Netlist

open List (Forall₂)
open Lowering (Context Fault Lowers NoticeLevel)
open Syntax (Instantiation Item)

/-- The instances of an outcome: if there was a fault, there are none. -/
def Lowering.instancesOf : Except Fault (List Design.Instance) → List Design.Instance
  | .ok instances => instances
  | .error _ => []

/-- A text that is accepted as one statement, by itself in a file of some session. -/
structure Accepted where
  sources : Sources
  file : Nat
  path : String
  text : String
  before : Session
  stmt : Instantiation
  after : Session
  isFile : sources.file file = .ok ⟨path, text⟩
  accepts : Parser.parseInstantiation sources file before = .ok (some stmt, after)

/-- A statement alone is read as a statement. -/
theorem Parser.Reads.of_soleInstantiation {stmt : Instantiation} {c c' : Parser.Cursor}
    {s t : Session} {ts : List Token}
    (h : Parser.Reads Parser.soleInstantiation c s ts stmt c' t) :
    Parser.Reads Parser.instantiation c s ts stmt c' t := by
  obtain ⟨_, d, u, us, _, rfl, hstmt, h⟩ := h.of_bind
  obtain ⟨vs, rfl, h⟩ := h.next (Parser.Reads.sees .eof)
  by_cases hend : d.current = .eof
  · rw [decide_eq_true hend] at h
    obtain ⟨rfl, rfl, rfl, rfl⟩ := h.of_pure
    rwa [List.append_nil]
  · rw [decide_eq_false hend] at h
    obtain ⟨_, _, _, _, _, -, h, -⟩ := h.of_bind
    obtain ⟨_, _, _, _, _, -, -, h⟩ := h.of_bind
    exact absurd h Parser.Reads.not_reportAt

/-- The same span in another file, farther back. -/
def Span.moveTo (file n : Nat) (s : Span) : Span := ⟨file, s.start + n, s.stop + n⟩

section Texts

/-- Texts one below the other, and the word that closes the module they stand in. -/
def bodyText : List String → String
  | [] => "endmodule"
  | text :: texts => text ++ "\n" ++ bodyText texts

/-- A module with these texts in it, each on lines of its own. -/
def moduleText (texts : List String) : String := "module m;" ++ "\n" ++ bodyText texts

/-- Where texts stand one below the other, the first of them at `n`. -/
def placed (n : Nat) : List Accepted → List (Nat × Accepted)
  | [] => []
  | a :: as => (n, a) :: placed (n + lead a.text) as

/-- The file that a text is in has no part in how it is cut. -/
theorem lex_clean {file : Nat} {content : String} (h : (lex file content).2 = []) (file' : Nat) :
    lex file' content = ((lex file content).1, []) := by
  refine Prod.ext rfl ?_
  rw [lex_problems, List.flatMap_eq_nil_iff]
  intro l hl
  rw [Lexeme.diagnostics, Lexeme.problems_of_clean hl h, List.map_nil]

end Texts

namespace Accepted

variable (a : Accepted)

/-- The tokens of the statement. -/
def tokens : List Token := (lex a.file a.text).1.dropLast

theorem lex_eq : (lex a.file a.text).1 =
    a.tokens ++ [Token.endAt (Text.byteLength a.text.toList)] :=
  lex_dropLast a.file a.text

/-- Nothing is wrong with the text, and all of it is read for the statement. -/
theorem reads : (lex a.file a.text).2 = [] ∧
    a.stmt.Sentence (.ofNames a.after.names a.file) a.tokens ∧
    ∃ c, Parser.Reads Parser.instantiation (.between a.file [] (lex a.file a.text).1) a.before
      a.tokens a.stmt c a.after := by
  have hmirror : Parser.Mirror (Frame.ofFile a.file) (Instantiation.Alike _)
      Parser.soleInstantiation Parser.soleInstantiation := Parser.mirror_soleInstantiation
  obtain ⟨stmt, c, t, hrun, hparse, herrors⟩ :=
    Parser.parsingText_errors hmirror a.text a.before
  have hparsed : (Parser.parsing Parser.soleInstantiation a.sources a.file).run.run a.before =
      (.ok stmt, t) := (Parser.parsing_run a.isFile _ _).1.trans hparse
  have hresult := a.accepts
  rw [Parser.parseInstantiation, hparsed] at hresult
  obtain ⟨hstmt, rfl⟩ := Prod.mk.inj (Except.ok.inj hresult)
  split at hstmt
  next hsame =>
    cases hstmt
    obtain ⟨hclean, hquiet⟩ := herrors.mp hsame
    rw [hclean] at hrun
    have hreads := Parser.reads_soleInstantiation hclean hrun hquiet
    exact ⟨hclean, Parser.sentence_of_soleInstantiation hclean hrun hquiet, c,
      hreads.of_soleInstantiation⟩
  next => cases hstmt

/-- The spans of the text and the same ones in a file that has it `n` bytes behind the start. -/
def movedTo (file n : Nat) (s s' : Span) : Prop := s.file = a.file ∧ s' = s.moveTo file n

/-- What corresponds between the statement by itself and in a file that has its text `n` bytes
behind the start, given the names that are known there. -/
def frame (sources : Sources) (file n ahead : Nat) (names : Names) : Frame where
  file := a.file
  file' := file
  ahead := ahead
  name _ := a.after.names.Same names
  span := a.movedTo file n
  leaf _ text s s' := a.sources.snippet s = .ok text ∧ sources.snippet s' = .ok text
  broken := True
  flaw _ _ := True
  opens := False
  span_file := by
    rintro s _ ⟨hfile, rfl⟩
    exact ⟨hfile, rfl⟩
  span_cover := by
    rintro s _ t _ ⟨hfile, rfl⟩ ⟨-, rfl⟩
    refine ⟨hfile, ?_⟩
    simp only [Span.cover, Span.moveTo, Nat.add_min_add_right, Nat.add_max_add_right]
  span_atStart := by
    rintro s _ ⟨hfile, rfl⟩
    exact ⟨hfile, rfl⟩
  flaw_of_broken _ := trivial

/-- A statement of a file that is this one, moved back by `n` bytes. -/
def StandsAt (sources : Sources) (file n : Nat) (names : Names) (stmt : Instantiation) : Prop :=
  ∃ ahead, a.stmt.Alike (a.frame sources file n ahead names) stmt

/-- Tokens that are those of the statement, moved back by `n` bytes, and have their texts in a
file. -/
structure TokensAt (sources : Sources) (file n : Nat) (ts : List Token) : Prop where
  moved : ts = a.tokens.map (Token.shift n)
  texts : ∀ t ∈ ts, sources.snippet (t.span file) = .ok t.text

variable {a} {sources : Sources} {file n : Nat} {ts : List Token}

theorem TokensAt.sentence (h : a.TokensAt sources file n ts) :
    ∃ W stmt, Instantiation.Sentence W stmt ts := by
  obtain ⟨-, hsentence, -⟩ := a.reads
  refine Parser.exists_sentence hsentence ?_
  rw [h.moved, List.forall₂_map_right_iff]
  exact List.forall₂_same.mpr fun _ _ => ⟨rfl, rfl⟩

/-- Wherever its tokens stand, the statement is read, whatever comes behind it. -/
theorem TokensAt.takes (h : a.TokensAt sources file n ts) (rest : List Token) :
    Parser.Takes file Parser.instantiation ts rest fun N => a.StandsAt sources file n N := by
  obtain ⟨W, stmt, hsentence⟩ := h.sentence
  obtain ⟨hclean, -, c, hreads⟩ := a.reads
  intro before s
  obtain ⟨stmt', s', hreads', -⟩ :=
    (Parser.accepts_instantiation hsentence).takes Parser.mirror_instantiation before s
  refine ⟨stmt', s', hreads', fun N hN => ⟨before.length, ?_⟩⟩
  have htokens : Forall₂ (a.frame sources file n before.length N).Tokens a.tokens ts := by
    rw [h.moved, List.forall₂_map_right_iff]
    refine List.forall₂_same.mpr fun t ht => ?_
    have htext : a.sources.snippet (t.span a.file) = .ok t.text := by
      refine snippet_of_mem_lex a.isFile ?_
      rw [a.lex_eq]
      exact List.mem_append_left _ ht
    have htext' := h.texts (t.shift n) (by rw [h.moved]; exact List.mem_map_of_mem ht)
    exact ⟨rfl, rfl, ⟨rfl, rfl⟩, ⟨htext, htext'⟩, fun _ => trivial⟩
  rw [a.lex_eq] at hreads
  refine Parser.alike_instantiation trivial rfl hreads hreads' htokens (Nat.zero_add _).symm ?_
  exact fun text i j hi hj => ⟨text, hi, hN.resolve? hj⟩

end Accepted

section Layout

theorem Token.map_shift (n m : Nat) (ts : List Token) :
    (ts.map (Token.shift m)).map (Token.shift n) = ts.map (Token.shift (n + m)) := by
  rw [List.map_map]
  refine List.map_congr_left fun t _ => ?_
  simp only [Function.comp, Token.shift, Nat.add_assoc, Nat.add_comm m n]

/-- The tokens of statements one below the other are theirs, each moved to its place. -/
theorem lex_bodyText (file : Nat) (as : List Accepted) :
    (lex file (bodyText (as.map Accepted.text))).2 = [] ∧ ∀ n, ∃ us closer last,
      closer.kind = .unitEnd .module ∧ last.kind = .eof ∧
      (lex file (bodyText (as.map Accepted.text))).1.map (Token.shift n) =
        us ++ [closer, last] ∧
      Strung (fun p ts => ts = p.2.tokens.map (Token.shift p.1)) (placed n as) us := by
  induction as with
  | nil =>
    have hword : lex 0 "endmodule" =
        ([⟨.unitEnd .module, "endmodule", 0, 9⟩, Token.endAt 9], []) :=
      Prod.ext (by decide +kernel) rfl
    have hclean : (lex 0 "endmodule").2 = [] := by rw [hword]
    have hlex : lex file (bodyText []) = _ := lex_clean hclean file
    rw [List.map_nil, hlex, hword]
    exact ⟨rfl, fun n => ⟨[], _, _, rfl, rfl, rfl, .nil⟩⟩
  | cons a as ih =>
    obtain ⟨hnone, hlater⟩ := ih
    obtain ⟨hclean, hsentence, -⟩ := a.reads
    have halone := lex_clean hclean file
    have hclosed : openAttributes (lex file a.text).1.dropLast = 0 := by
      rw [halone]
      exact Parser.openAttributes_instantiation hsentence
    have hlex : lex file (bodyText ((a :: as).map Accepted.text)) = _ :=
      lex_joined (by rw [halone]) hnone hclosed
    rw [hlex]
    refine ⟨rfl, fun n => ?_⟩
    obtain ⟨us, closer, last, hcloser, hlast, htokens, hplaced⟩ := hlater (n + lead a.text)
    refine ⟨a.tokens.map (Token.shift n) ++ us, closer, last, hcloser, hlast, ?_, .cons rfl hplaced⟩
    rw [List.map_append, Token.map_shift, htokens, halone, List.append_assoc]
    rfl

/-- The tokens of a module with statements in it. -/
theorem lex_moduleText (file : Nat) (as : List Accepted) : ∃ opener name semicolon us closer last,
    lex file (moduleText (as.map Accepted.text)) =
      (opener :: name :: semicolon :: (us ++ [closer, last]), []) ∧
    opener.kind = .unitStart .module ∧ name.kind = .identifier ∧ name.text = "m" ∧
    semicolon.kind = .semicolon ∧ closer.kind = .unitEnd .module ∧ last.kind = .eof ∧
    Strung (fun p ts => ts = p.2.tokens.map (Token.shift p.1))
      (placed (lead "module m;") as) us := by
  obtain ⟨hnone, htokens⟩ := lex_bodyText file as
  obtain ⟨us, closer, last, hcloser, hlast, htokens, hplaced⟩ := htokens (lead "module m;")
  have hopening : lex 0 "module m;" = ([⟨.unitStart .module, "module", 0, 6⟩,
      ⟨.identifier, "m", 7, 8⟩, ⟨.semicolon, ";", 8, 9⟩, Token.endAt 9], []) :=
      Prod.ext (by decide +kernel) rfl
  have hclean : (lex 0 "module m;").2 = [] := by rw [hopening]
  have halone := lex_clean hclean file
  rw [hopening] at halone
  have hlex : lex file (moduleText (as.map Accepted.text)) = _ :=
    lex_joined (by rw [halone]) hnone (by rw [halone]; rfl)
  rw [halone, htokens] at hlex
  exact ⟨_, _, _, us, closer, last, hlex, rfl, rfl, rfl, rfl, hcloser, hlast, hplaced⟩

end Layout

section Module

variable {sources : Sources} {file : Nat} {path : String}

/-- A file whose tokens are read without a report is parsed without a diagnostic. -/
theorem parseFile_of_reads {f : SourceFile} (hf : sources.file file = .ok f)
    (hclean : (lex file f.content).2 = []) {ts : List Token} {text : Syntax.SourceText}
    {c : Parser.Cursor} {s t : Session}
    (h : Parser.Reads Parser.sourceText (.between file [] (lex file f.content).1) s ts text c t) :
    Parser.parseFile sources file s = .ok (text, t) ∧ t.log = s.log := by
  obtain ⟨_, _, _, hrun, hmisuse, -⟩ :=
    Parser.account_sourceText (pairwise_lex file f.content)
      (Parser.cursors_ofFile file (lex file f.content).1) (Parser.stands_lex file f.content) s
  cases h.run.symm.trans hrun
  have hstart : ((Task.emitAll (lex file f.content).2).run s).2 = s := by
    rw [hclean]
    rfl
  obtain ⟨hparse, -⟩ := Parser.parsingText_run (by rw [hstart]; exact h.run) hmisuse
  constructor
  · rw [Parser.parseFile, (Parser.parsing_run hf _ s).1, hparse]
    rfl
  · have hlog := Task.log_eq h.quiet
    rwa [h.run] at hlog

/-- A module with statements in it is parsed without a diagnostic, and has these statements for its
items. -/
theorem parseFile_moduleText {as : List Accepted}
    (hf : sources.file file = .ok ⟨path, moduleText (as.map Accepted.text)⟩) (s : Session) :
    ∃ unit span t, Parser.parseFile sources file s = .ok (⟨[unit], span⟩, t) ∧ t.log = s.log ∧
      unit.kind = .module ∧ t.names.find? "m" = some unit.name.name ∧ unit.endLabel = none ∧
      Forall₂ (fun p item => ∃ stmt, item = .instantiation stmt ∧
        p.2.StandsAt sources file p.1 t.names stmt) (placed (lead "module m;") as) unit.items := by
  obtain ⟨opener, name, semicolon, us, closer, last, hlex, hopener, hname, htext, hsemicolon,
    hcloser, hlast, hplaced⟩ := lex_moduleText file as
  have hstrung : Strung (fun p ts => p.2.TokensAt sources file p.1 ts)
      (placed (lead "module m;") as) us := by
    have hsnippets : ∀ t ∈ us, sources.snippet (t.span file) = .ok t.text := fun t ht =>
      snippet_of_mem_lex hf (by rw [hlex]; simp [ht])
    exact (hplaced.restrict hsnippets).mono fun _ _ h => ⟨h.1, h.2⟩
  have hclose : Parser.headKind [closer, last] = .unitEnd .module := hcloser
  have hend : Parser.headKind [last] = .eof := hlast
  have hitems (bound : Nat) (hbound : us.length ≤ bound) :
      Parser.Takes file (Parser.itemsWithin .module bound) us [closer, last] fun N items =>
        Forall₂ (fun p item => ∃ stmt, item = .instantiation stmt ∧
          p.2.StandsAt sources file p.1 N stmt) (placed (lead "module m;") as) items :=
    Parser.takes_itemsWithin hstrung hclose (fun _ _ h => h.sentence)
      (fun _ _ rest h => h.takes rest) hbound
  have hcolon : Parser.headKind [last] ≠ .colon := by
    rw [hend]
    nofun
  have hbody := Parser.takes_unitBody (by rw [hname]; rfl) hsemicolon hcloser hcolon hitems
  obtain ⟨unit, c, t, hunit, hkind, hvalues⟩ := Parser.reads_designUnit hopener hbody [] s
  obtain ⟨span, d, hreads⟩ := Parser.reads_sourceText hopener hend hunit
  obtain ⟨hnamed, hfound, hlabel⟩ := hvalues t.names (.refl _)
  have htokens : (lex file (moduleText (as.map Accepted.text))).1 =
      opener :: ([name] ++ ([semicolon] ++ (us ++ ([closer] ++ []))) ++ [last]) := by
    rw [hlex]
    simp
  rw [← htokens] at hreads
  obtain ⟨hparse, hlog⟩ := parseFile_of_reads hf (by rw [hlex]) hreads
  rw [htext] at hnamed
  exact ⟨unit, span, t, hparse, hlog, hkind, hnamed, hlabel, hfound⟩

/-- Statements that are alike are lowered alike, from the session that read the one and any that
knows the names of the other. -/
theorem Accepted.lowered_alike {a : Accepted} {n ahead : Nat} {names later : Names}
    {stmt : Instantiation} (halike : a.stmt.Alike (a.frame sources file n ahead names) stmt)
    {level : NoticeLevel} {s t t' : Session}
    {result result' : Except Misuse (Except Fault (List Design.Instance))}
    (hs : names.Extends s.names)
    (hrun : (Lowering.instantiation ⟨a.sources, level⟩ a.stmt).run.run.run a.after = (result, t))
    (hrun' : (Lowering.instantiation ⟨sources, level⟩ stmt).run.run.run s = (result', t'))
    (hlater : t'.names.Extends later) :
    Worked (fun r r' => Forall₂ (Design.Instance.Alike (t.names.Same later) (a.movedTo file n))
      (Lowering.instancesOf r) (Lowering.instancesOf r')) result result' := by
  have hgrown := Task.extends_of_run hrun
  have hgrown' := Task.extends_of_run hrun'
  let P : Pairing := ⟨fun _ => t.names.Same t'.names, a.after.names.Same names,
    fun _ _ => True, True⟩
  have hlowers : Lowers (a.frame sources file n ahead names) P (t.names.Same later)
      ⟨a.sources, level⟩ ⟨sources, level⟩ := {
    known := fun _ _ _ h => h
    kept := fun _ _ _ h => h.mono hgrown ((hs.trans hgrown').trans hlater)
    entered := fun _ _ _ h => h.mono (.refl _) hlater
    flaw := fun _ => trivial
    text := fun h => h
    number := fun _ _ => .inl trivial
    notice := fun _ _ _ _ => trivial }
  have hholds : P.Holds a.after
      ((Lowering.instantiation ⟨a.sources, level⟩ a.stmt).run.run.run a.after).2 s
      ((Lowering.instantiation ⟨sources, level⟩ stmt).run.run.run s).2 := by
    rw [hrun, hrun']
    exact {
      name := fun text i j hi hj => ⟨text, hi, hj⟩
      known := by
        rintro i j ⟨text, hi, hj⟩
        exact ⟨text, hi, hs.resolve? hj⟩
      broken := fun _ => trivial }
  obtain ⟨hworked, -⟩ := Paired.run (Lowering.agree_instantiation hlowers halike) hholds
  rw [hrun, hrun'] at hworked
  obtain ⟨houtcomes⟩ := hworked
  refine .ok ?_
  cases houtcomes with
  | value _ his => exact his.1
  | fault _ _ => exact .nil

/-- What a statement is lowered to, by itself and in another file. -/
theorem Accepted.StandsAt.lowered {a : Accepted} {n : Nat} {names : Names} {stmt : Instantiation}
    (h : a.StandsAt sources file n names stmt) (level : NoticeLevel) {s : Session}
    (hs : names.Extends s.names) :
    ∃ r t r' t', (Lowering.instantiation ⟨a.sources, level⟩ a.stmt).run.run.run a.after =
        (.ok r, t) ∧
      (Lowering.instantiation ⟨sources, level⟩ stmt).run.run.run s = (.ok r', t') ∧
      ∀ later, t'.names.Extends later → Forall₂ (Design.Instance.Alike (t.names.Same later)
        (a.movedTo file n)) (Lowering.instancesOf r) (Lowering.instancesOf r') := by
  obtain ⟨ahead, halike⟩ := h
  rcases hrun : (Lowering.instantiation ⟨a.sources, level⟩ a.stmt).run.run.run a.after with
    ⟨result, t⟩
  rcases hrun' : (Lowering.instantiation ⟨sources, level⟩ stmt).run.run.run s with ⟨result', t'⟩
  cases lowered_alike halike hs hrun hrun' (.refl _) with
  | @ok r r' _ =>
    refine ⟨r, t, r', t', rfl, rfl, fun later hlater => ?_⟩
    obtain ⟨hinstances⟩ := lowered_alike halike hs hrun hrun' hlater
    exact hinstances

/-- Instances of a file that are those the statement gives by itself, moved back by `n` bytes. -/
def Accepted.InstancesAt (a : Accepted) (level : NoticeLevel) (file n : Nat) (names : Names)
    (instances : List Design.Instance) : Prop :=
  ∃ r t, (Lowering.instantiation ⟨a.sources, level⟩ a.stmt).run.run.run a.after = (.ok r, t) ∧
    Forall₂ (Design.Instance.Alike (t.names.Same names) (a.movedTo file n))
      (Lowering.instancesOf r) instances

/-- A fault leaves no instances, and what is known by name stays. -/
theorem Lowering.reportingFaults_run {x : Lowering.LowerM (List Design.Instance)} {s t : Session}
    {r : Except Fault (List Design.Instance)} (h : x.run.run.run s = (.ok r, t)) :
    ∃ u, (Lowering.reportingFaults x).run.run s = (.ok (Lowering.instancesOf r), u) ∧
      u.names = t.names := by
  cases r with
  | ok instances => exact ⟨t, SessionM.run_bind h, rfl⟩
  | error f => exact ⟨t.emit f.diagnostic, SessionM.run_bind h, rfl⟩

/-- Statements are lowered one after the other, each to what it gives by itself. -/
theorem lowered_items {ps : List (Nat × Accepted)} {items : List Item} {names : Names}
    (h : Forall₂ (fun p item => ∃ stmt, item = .instantiation stmt ∧
      p.2.StandsAt sources file p.1 names stmt) ps items)
    (level : NoticeLevel) {s : Session} (hs : names.Extends s.names) :
    ∃ groups t, (items.mapM fun i =>
        Lowering.reportingFaults (Lowering.item ⟨sources, level⟩ i)).run.run s = (.ok groups, t) ∧
      names.Extends t.names ∧ ∀ later, t.names.Extends later →
        Forall₂ (fun p group => p.2.InstancesAt level file p.1 later group) ps groups := by
  induction h generalizing s with
  | nil => exact ⟨[], s, rfl, hs, fun _ _ => .nil⟩
  | @cons p _ ps items hp _ ih =>
    obtain ⟨stmt, rfl, hstands⟩ := hp
    obtain ⟨r, t, r', t', hrun, hrun', halike⟩ := hstands.lowered level hs
    obtain ⟨u, hgroup, hsame⟩ := Lowering.reportingFaults_run hrun'
    have hgrown := Task.extends_of_run hgroup
    obtain ⟨groups, v, hgroups, hv, hinstances⟩ := ih (hs.trans hgrown)
    have hgrown' := Task.extends_of_run hgroups
    refine ⟨Lowering.instancesOf r' :: groups, v, ?_, hv, fun later hlater => ?_⟩
    · have hfirst : ([Item.instantiation stmt].mapM fun i =>
          Lowering.reportingFaults (Lowering.item ⟨sources, level⟩ i)).run.run s =
          (.ok [Lowering.instancesOf r'], u) := SessionM.run_bind hgroup
      exact SessionM.mapM_append hfirst hgroups
    · refine .cons ⟨r, t, hrun, halike later ?_⟩ (hinstances later hlater)
      rw [← hsame]
      exact hgrown'.trans hlater

/-- Statements that are accepted by themselves make up a module: no diagnostic is emitted, the items
of the module are these statements, and its instances are those that they give by themselves. -/
theorem module_of_statements {as : List Accepted}
    (hf : sources.file file = .ok ⟨path, moduleText (as.map Accepted.text)⟩) (s : Session)
    (level : NoticeLevel) :
    ∃ unit span t, Parser.parseFile sources file s = .ok (⟨[unit], span⟩, t) ∧ t.log = s.log ∧
      unit.kind = .module ∧ t.names.find? "m" = some unit.name.name ∧ unit.endLabel = none ∧
      Forall₂ (fun p item => ∃ stmt, item = .instantiation stmt ∧
        p.2.StandsAt sources file p.1 t.names stmt) (placed (lead "module m;") as) unit.items ∧
      ∃ groups u, (Lowering.designUnit ⟨sources, level⟩ unit).run.run t =
          (.ok ⟨.id unit.name.name, groups.flatten, unit.span⟩, u) ∧
        Forall₂ (fun p group => p.2.InstancesAt level file p.1 u.names group)
          (placed (lead "module m;") as) groups := by
  obtain ⟨unit, span, t, hparse, hlog, hkind, hname, hlabel, hitems⟩ := parseFile_moduleText hf s
  refine ⟨unit, span, t, hparse, hlog, hkind, hname, hlabel, hitems, ?_⟩
  obtain ⟨groups, u, hgroups, hu, hinstances⟩ := lowered_items hitems level (.refl _)
  refine ⟨groups, u, ?_, hinstances u.names (.refl _)⟩
  have htext : Piece.NameText "m".toList := by
    rw [show "m".toList = ['m'] from rfl]
    exact .mk (by decide) (List.forall_mem_nil _) (by decide +kernel)
  obtain ⟨hnamed, -⟩ := Lowering.settled_identifier htext hname u hu
  exact (SessionM.run_bind hgroups).trans (SessionM.run_bind hnamed)

/-- Whether the text is accepted as one statement where it is the first file of a new session. -/
def isStatement (text : String) : Bool :=
  match Parser.parseInstantiation (Sources.ofList [("", text)]) 0 {} with
  | .ok (some _, _) => true
  | _ => false

theorem exists_accepted {text : String} (h : isStatement text = true) :
    ∃ a : Accepted, a.text = text := by
  unfold isStatement at h
  split at h
  next stmt after haccepts => exact ⟨⟨_, 0, "", text, {}, stmt, after, rfl, haccepts⟩, rfl⟩
  next => cases h

private def embeddedTexts : List String :=
  ["a #(.W(8)) u[3:0] (.x({b, c[1]}), .y); // two ports", "d v ((* keep *) p, , q + 1), w (.*);"]

private def embeddedSources : Sources := Sources.ofList [("m.sv", moduleText embeddedTexts)]

theorem module_of_statements_two : ∃ as : List Accepted, as.map Accepted.text = embeddedTexts ∧
    ∃ unit span t, Parser.parseFile embeddedSources 0 {} = .ok (⟨[unit], span⟩, t) ∧
      t.log = {} ∧ unit.kind = .module ∧ t.names.find? "m" = some unit.name.name ∧
      unit.endLabel = none ∧
      Forall₂ (fun p item => ∃ stmt, item = .instantiation stmt ∧
        p.2.StandsAt embeddedSources 0 p.1 t.names stmt) (placed (lead "module m;") as) unit.items ∧
      ∃ groups u, (Lowering.designUnit ⟨embeddedSources, .warning⟩ unit).run.run t =
          (.ok ⟨.id unit.name.name, groups.flatten, unit.span⟩, u) ∧
        Forall₂ (fun p group => p.2.InstancesAt .warning 0 p.1 u.names group)
          (placed (lead "module m;") as) groups := by
  have hfirst : isStatement "a #(.W(8)) u[3:0] (.x({b, c[1]}), .y); // two ports" = true := by
    decide +kernel
  have hsecond : isStatement "d v ((* keep *) p, , q + 1), w (.*);" = true := by decide +kernel
  obtain ⟨a, ha⟩ := exists_accepted hfirst
  obtain ⟨b, hb⟩ := exists_accepted hsecond
  have htexts : [a, b].map Accepted.text = embeddedTexts := by
    rw [List.map_cons, List.map_singleton, ha, hb]
    rfl
  have hf : embeddedSources.file 0 = .ok ⟨"m.sv", moduleText ([a, b].map Accepted.text)⟩ := by
    rw [htexts]
    rfl
  exact ⟨[a, b], htexts, module_of_statements hf {} .warning⟩

end Module

end Netlist
