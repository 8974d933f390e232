import Netlist.Proofs.Parser.Joining
import Netlist.Proofs.Parser.Sentences
import Netlist.Proofs.Run.Interleaved
import Netlist.Proofs.Run.Openings
import Netlist.Proofs.Syntax.Leaves

/-!
Recovery is contained. Where source is broken the parser makes up names and nodes to go on, but a
statement that is kept holds none of them: each of its names is a token of the text, and whatever in
it is no expression is a token that the lexer has reported. A statement is parsed over a frame that
is broken just if something is reported meanwhile, and a statement with a report is not kept. Since
every statement has an instance, lowering never misses one.
-/
namespace Netlist

open List (Forall₂)
open Netlist.Syntax (Leaf Item Instantiation DesignUnit SourceText)

/-- A leaf that stands for a token: a name for one with its text, and what is no expression for a
broken one that was reported. -/
def Syntax.Leaf.IsToken (file : Nat) (tokens : List Token) (ds : List Diagnostic) (names : Names) :
    Leaf → Prop
  | .name i => ∃ t ∈ tokens, t.kind.IsName ∧ names.resolve? i.name = some t.text ∧
      i.span = t.span file
  | .flaw span => ∃ t ∈ tokens, t.kind = .error ∧ span = t.span file ∧
      ∃ d ∈ ds, d.code = Problem.code ∧ d.span = span

/-- One parse of a statement from the tokens of a text, where names end up in `names` and nothing
is reported. -/
def Frame.ofStatement (file : Nat) (tokens : List Token) (names : Names) (errors : Nat) :
    Frame where
  file := file
  file' := file
  errors := errors
  name text i _ := names.resolve? i = some text
  span s s' := s.file = file ∧ s'.file = file
  leaf kind text s _ := ∃ t ∈ tokens, t.kind = kind ∧ t.text = text ∧ s = t.span file
  broken := False
  flaw s _ := ∃ t ∈ tokens, t.kind = .error ∧ s = t.span file
  opens := False
  span_file h := h
  span_cover ha _ := ha
  span_atStart h := h
  flaw_of_broken h := h.elim

section Tokens

variable (file : Nat) (tokens : List Token) (names : Names)

def Syntax.Identifier.IsToken (i : Syntax.Identifier) : Prop :=
  ∃ t ∈ tokens, t.kind.IsName ∧ names.resolve? i.name = some t.text ∧ i.span = t.span file

/-- A name is a token of the text, or one that the parser made up where none was. -/
def Syntax.Identifier.Stands (i : Syntax.Identifier) : Prop :=
  i.IsToken file tokens names ∨
    names.resolve? i.name = some "<missing>" ∧ i.span = i.span.atStart

/-- A statement that is read from tokens, with nothing made up. -/
def Syntax.Instantiation.OfTokens (stmt : Instantiation) : Prop :=
  ∃ errors, stmt.Alike (Frame.ofStatement file tokens names errors) stmt

/-- Only the statement of an item is asked about. -/
def Syntax.Item.OfTokens (item : Item) : Prop :=
  ∀ stmt, item = .instantiation stmt → stmt.OfTokens file tokens names

structure Syntax.DesignUnit.OfTokens (u : DesignUnit) : Prop where
  name : u.name.Stands file tokens names
  items : ∀ i ∈ u.items, i.OfTokens file tokens names
  label : ∀ i ∈ u.endLabel, i.Stands file tokens names

end Tokens

/-- A statement without anything that recovery made up. -/
structure Syntax.Instantiation.Contained (file : Nat) (tokens : List Token) (ds : List Diagnostic)
    (names : Names) (stmt : Instantiation) : Prop where
  instances : stmt.instances ≠ []
  leaves : ∀ l ∈ stmt.leaves, l.IsToken file tokens ds names

def Syntax.Item.Contained (file : Nat) (tokens : List Token) (ds : List Diagnostic)
    (names : Names) (item : Item) : Prop :=
  ∀ stmt, item = .instantiation stmt → stmt.Contained file tokens ds names

def Pairing.ofStatement (names : Names) : Pairing where
  name text i _ := names.resolve? i = some text
  known _ _ := False
  diag _ _ := True
  broken := False

namespace Parser

variable {file : Nat} {tokens : List Token} {ds : List Diagnostic} {α β : Type}

/-- A cursor that has only tokens of one text behind and ahead of it. -/
structure Cursor.Inside (file : Nat) (tokens : List Token) (c : Cursor) : Prop where
  cursors : (Frame.ofFile file).Cursors c c
  rest : ∀ t ∈ c.rest, t ∈ tokens
  prev : ∀ t, c.prev = some t → t ∈ tokens

theorem Cursor.Inside.passes {c c' : Cursor} {taken : List Token} (h : c.Inside file tokens)
    (hpasses : c.Passes taken c') (hcursors : (Frame.ofFile file).Cursors c' c') :
    c'.Inside file tokens := by
  have hmem : ∀ t ∈ taken ++ c'.rest, t ∈ tokens := by
    rw [← hpasses.rest]
    exact h.rest
  refine ⟨hcursors, fun t ht => hmem t (List.mem_append_right _ ht), ?_⟩
  intro t ht
  rw [hpasses.prev] at ht
  cases hlast : taken.getLast? with
  | some u =>
    rw [hlast] at ht
    obtain rfl : u = t := Option.some.inj ht
    exact hmem u (List.mem_append_left _ (List.mem_of_getLast? hlast))
  | none =>
    rw [hlast] at ht
    exact h.prev t ht

/-- Such a cursor suits the parse of a statement. -/
theorem Cursor.Inside.ofStatement {c : Cursor} (h : c.Inside file tokens) (names : Names) :
    (Frame.ofStatement file tokens names c.errors).Cursors c c := by
  have hsame (t : Token) (ht : t ∈ tokens) :
      (Frame.ofStatement file tokens names c.errors).Tokens t t :=
    ⟨rfl, rfl, ⟨rfl, rfl⟩, ⟨t, ht, rfl, rfl, rfl⟩, fun herror => ⟨t, ht, herror, rfl⟩⟩
  exact .self ⟨h.cursors.started, h.cursors.misuse⟩ h.cursors.file h.cursors.file rfl
    (fun herrors => absurd rfl herrors) (fun t ht => hsame t (h.rest t ht))
    (fun t ht => hsame t (h.prev t ht)) fun _ _ => ⟨rfl, rfl⟩

/-- From any place in the text the parser gives what `P` says, and it goes on saying so when more
names are entered. -/
def Gives (file : Nat) (tokens : List Token) (P : Names → α → Prop) (x : ParserM α) : Prop :=
  ∀ c s a c' t, c.Inside file tokens → (x.task c).run s = ((a, c'), t) →
    c'.Inside file tokens ∧ ∀ later, t.names.Extends later → P later a

namespace Gives

variable {P : Names → α → Prop} {Q : Names → β → Prop} {x : ParserM α} {f : α → ParserM β}

theorem pure {a : α} (h : ∀ names, P names a) : Gives file tokens P (Pure.pure a) := by
  intro c s _ _ _ hc hrun
  cases hrun
  exact ⟨hc, fun later _ => h later⟩

theorem bind (hx : Gives file tokens P x)
    (hf : ∀ a, (∃ names, P names a) →
      Gives file tokens (fun names b => P names a → Q names b) (f a)) :
    Gives file tokens Q (x >>= f) := by
  intro c s b c'' u hc hrun
  rcases hfirst : (x.task c).run s with ⟨⟨a, c'⟩, t⟩
  rw [run_bind hfirst] at hrun
  obtain ⟨hc', ha⟩ := hx c s a c' t hc hfirst
  obtain ⟨hc'', hb⟩ := hf a ⟨t.names, ha _ (.refl _)⟩ c' t b c'' u hc' hrun
  refine ⟨hc'', fun later hlater => hb later hlater (ha later ?_)⟩
  exact (Task.extends_of_run hrun).trans hlater

/-- After a step of whose answer nothing is needed. -/
theorem next {R : Names → α → Prop} (hx : Gives file tokens R x)
    (hf : ∀ a, Gives file tokens Q (f a)) : Gives file tokens Q (x >>= f) := by
  refine hx.bind fun a _ => ?_
  intro c s b c' t hc hrun
  obtain ⟨hc', hb⟩ := hf a c s b c' t hc hrun
  exact ⟨hc', fun later hlater _ => hb later hlater⟩

theorem map {g : α → β} (hx : Gives file tokens P x) (hg : ∀ names a, P names a → Q names (g a)) :
    Gives file tokens Q (g <$> x) :=
  hx.bind fun a _ => pure fun names => hg names a

/-- A parser that mirrors itself. -/
theorem mirror {R : α → α → Prop} (h : Mirror (Frame.ofFile file) R x x) :
    Gives file tokens (fun _ a => R a a) x := by
  intro c s a c' t hc hrun
  obtain ⟨taken, hpasses⟩ := Cursor.Passes.exists_run x c s
  obtain ⟨⟨hresult, hafter⟩, -⟩ :=
    (h.paired (serves_ofFile file) hc.cursors).run (holds_free s _ s _)
  rw [hrun] at hpasses hresult hafter
  exact ⟨hc.passes hpasses hafter, fun _ _ => hresult⟩

theorem look : Gives file tokens (fun _ c => c.Inside file tokens) look := by
  intro c s _ _ _ hc hrun
  cases hrun
  exact ⟨hc, fun _ _ => hc⟩

theorem take (kind : Kind) : Gives file tokens (fun _ _ => True) (take kind) := by
  intro c s a c' t hc hrun
  by_cases hkind : c.current = kind
  · rw [(take_run hkind s).1] at hrun
    cases hrun
    obtain ⟨taken, hpasses⟩ := Cursor.Passes.advance c
    exact ⟨hc.passes hpasses hc.cursors.advance, fun _ _ => trivial⟩
  · rw [Parser.take, run_bind (Reads.eat_other hkind).run] at hrun
    cases hrun
    exact ⟨hc, fun _ _ => trivial⟩

end Gives

/-- A name is consumed, or made up where another token stands. -/
theorem gives_expectIdentifier :
    Gives file tokens (fun names i => i.Stands file tokens names) expectIdentifier := by
  intro c s i c' t hc hrun
  refine ⟨(Gives.mirror mirror_expectIdentifier c s i c' t hc hrun).1, fun later hlater => ?_⟩
  by_cases hname : c.current.isIdentifier = true
  · rw [expectIdentifier_run hname] at hrun
    cases hrun
    obtain ⟨u, r, hrest⟩ : ∃ u r, c.rest = u :: r := by
      cases hrest : c.rest with
      | nil => rw [current_of_rest hrest] at hname; cases hname
      | cons u r => exact ⟨u, r, rfl⟩
    have hkind : c.current = u.kind := current_of_rest hrest
    have htext : c.currentText = u.text := by rw [Cursor.currentText, hrest]
    have hspan : c.currentSpan = u.span file := by
      rw [← show c.file = file from hc.cursors.file, Cursor.currentSpan, hrest]
      rfl
    refine .inl ⟨u, hc.rest u (by rw [hrest]; exact List.mem_cons_self), .inl (hkind ▸ hname),
      hlater.resolve? ?_, hspan⟩
    rw [← htext]
    exact Names.resolve?_intern s.names _
  · rw [expectIdentifier, nameOr, run_bind Reads.look.run, if_neg hname] at hrun
    cases hrun
    exact .inr ⟨hlater.resolve? (Names.resolve?_intern _ _), rfl⟩

theorem gives_endLabel? :
    Gives file tokens (fun names o => ∀ i ∈ o, i.Stands file tokens names) endLabel? := by
  refine (Gives.mirror (.eat .colon nofun)).next fun found => ?_
  cases found with
  | false => exact .pure fun _ => nofun
  | true => exact gives_expectIdentifier.map fun _ _ hi _ hj => Option.some.inj hj ▸ hi

section Items

/-- A statement parsed without a report is made of tokens. -/
theorem instantiation_ofTokens {c c' : Cursor} {s t : Session} {stmt : Instantiation}
    (hc : c.Inside file tokens) (hrun : (instantiation.task c).run s = ((stmt, c'), t))
    (hquiet : c'.errors ≤ c.errors) {later : Names} (hlater : t.names.Extends later) :
    stmt.OfTokens file tokens later := by
  have herrors : t.log.errors = s.log.errors := by
    have hcount := errors_task instantiation c s
    have hlog := Task.errors_run (instantiation.task c) s
    rw [hrun] at hcount hlog
    dsimp only at hcount
    have hnone : (instantiation.task c).emitted s = [] := List.length_eq_zero_iff.mp (by omega)
    rw [hlog, hnone, List.countP_nil, Nat.add_zero]
  have hserves : Serves (Frame.ofStatement file tokens later c.errors) (.ofStatement later) :=
    ⟨fun _ _ _ h => h, fun h => h, fun _ _ _ _ => trivial⟩
  have hpaired := mirror_instantiation.paired hserves (hc.ofStatement later)
  have hholds : (Pairing.ofStatement later).Holds s t s t := {
    name := fun _ _ _ hi _ => hlater.resolve? hi
    known := nofun
    broken := fun hne => hne herrors }
  have hboth := hpaired.run (by rw [hrun]; exact hholds)
  rw [hrun] at hboth
  exact ⟨_, hboth.1.1⟩

theorem gives_instantiationItem :
    Gives file tokens (fun names i => i.OfTokens file tokens names) instantiationItem := by
  intro c s item c' t hc hrun
  rcases hstmt : (instantiation.task c).run s with ⟨⟨stmt, d⟩, u⟩
  have hafter := (Gives.mirror mirror_instantiationItem c s item c' t hc hrun).1
  refine ⟨hafter, fun later hlater => ?_⟩
  rw [instantiationItem, run_bind Reads.currentSpan.run, run_bind Reads.look.run,
    run_bind hstmt, run_bind Reads.look.run] at hrun
  by_cases hmore : d.errors > c.errors
  · rw [if_pos hmore] at hrun
    rcases hspan : ((spanFrom c.currentSpan).task d).run u with ⟨⟨span, e⟩, v⟩
    rw [run_bind hspan] at hrun
    cases hrun
    intro _ hitem
    cases hitem
  · rw [if_neg hmore] at hrun
    cases hrun
    rintro _ ⟨rfl⟩
    exact instantiation_ofTokens hc hstmt (by omega) hlater

/-- Any other item is no statement. -/
theorem gives_otherItem {c : Cursor} (hc : c.Inside file tokens)
    (hunit : c.current.isUnitStart = false) :
    Gives file tokens (fun names i => i.OfTokens file tokens names) (otherItem c) := by
  have hnone (span : Span) (names : Names) : (Item.error span).OfTokens file tokens names :=
    nofun
  have hbroken : Gives file tokens (fun names i => i.OfTokens file tokens names)
      (brokenItem c) := by
    refine (Gives.mirror (mirror_report (e := .expectedInstantiation) nofun)).next fun _ => ?_
    refine (Gives.mirror mirror_recoverToSemicolon).next fun _ => ?_
    refine (Gives.mirror (mirror_takeSome hc.cursors hunit)).next fun _ => ?_
    refine (Gives.mirror (mirror_spanFrom hc.cursors.currentSpan)).next fun span => ?_
    exact .pure (hnone span)
  unfold otherItem
  split
  · refine (Gives.mirror (mirror_skipItem hc.cursors)).next fun _ => ?_
    refine Gives.look.next fun d => ?_
    split
    · refine (Gives.mirror (mirror_spanFrom hc.cursors.currentSpan)).next fun span => ?_
      exact .pure fun _ => nofun
    · exact hbroken
  · exact hbroken

theorem gives_item? {c : Cursor} (hc : c.Inside file tokens)
    (hunit : c.current.isUnitStart = false) :
    Gives file tokens (fun names o => ∀ i ∈ o, i.OfTokens file tokens names) (item? c) := by
  refine (Gives.mirror (.eat .semicolon nofun)).next fun empty => ?_
  cases empty with
  | true => exact .pure fun _ => nofun
  | false =>
    simp only [Bool.false_eq_true, if_false]
    split
    · exact gives_instantiationItem.map fun _ _ hi _ hj => Option.some.inj hj ▸ hi
    · exact (gives_otherItem hc hunit).map fun _ _ hi _ hj => Option.some.inj hj ▸ hi

theorem gives_itemsWithin (kind : UnitKind) (bound : Nat) :
    Gives file tokens (fun names is => ∀ i ∈ is, i.OfTokens file tokens names)
      (itemsWithin kind bound) := by
  induction bound with
  | zero => exact .pure fun _ => nofun
  | succ bound ih =>
    refine Gives.look.bind fun c hlooked => ?_
    obtain ⟨-, hc⟩ := hlooked
    split
    next => exact .pure fun _ _ => nofun
    next hinside =>
      simp only [Bool.or_eq_true, decide_eq_true_eq, not_or, Bool.not_eq_true] at hinside
      refine (gives_item? hc hinside.2).bind fun first _ => ?_
      refine ih.bind fun rest _ => ?_
      refine .pure fun names hrest hfirst _ i hi => ?_
      rcases List.mem_append.mp hi with hi | hi
      · exact hfirst i (Option.mem_toList.mp hi)
      · exact hrest i hi

theorem gives_designUnit (kind : UnitKind) :
    Gives file tokens (fun names u => u.OfTokens file tokens names) (designUnit kind) := by
  have hbody : Gives file tokens
      (fun names body => body.1.Stands file tokens names ∧
        (∀ i ∈ body.2.1, i.OfTokens file tokens names) ∧
        ∀ i ∈ body.2.2, i.Stands file tokens names) (unitBody kind) := by
    have hclosed : Mirror (Frame.ofFile file) _ (expect (.unitEnd kind)) (expect (.unitEnd kind)) :=
      mirror_expect nofun
    refine gives_expectIdentifier.bind fun name _ => ?_
    refine (Gives.mirror mirror_recoverToSemicolon).next fun _ => ?_
    refine (Gives.mirror mirror_remaining).next fun bound => ?_
    refine (gives_itemsWithin kind bound).bind fun items _ => ?_
    refine (Gives.mirror hclosed).next fun _ => ?_
    refine gives_endLabel?.bind fun label _ => ?_
    exact .pure fun _ hlabel hitems hname => ⟨hname, hitems, hlabel⟩
  refine (Gives.mirror mirror_currentSpan).bind fun start hstart => ?_
  obtain ⟨-, hstart⟩ := hstart
  refine (Gives.take _).next fun _ => ?_
  refine hbody.bind fun body _ => ?_
  refine (Gives.mirror (mirror_spanFrom hstart)).next fun span => ?_
  exact .pure fun _ ⟨hname, hitems, hlabel⟩ _ => ⟨hname, hitems, hlabel⟩

theorem gives_unitsWithin (bound : Nat) :
    Gives file tokens (fun names us => ∀ u ∈ us, u.OfTokens file tokens names)
      (unitsWithin bound) := by
  induction bound with
  | zero => exact .pure fun _ => nofun
  | succ bound ih =>
    refine (Gives.mirror mirror_current).next fun kind => ?_
    split
    · exact .pure fun _ => nofun
    · refine (gives_designUnit _).bind fun first _ => ?_
      refine ih.bind fun rest _ => ?_
      exact .pure fun _ hrest hfirst => List.forall_mem_cons.mpr ⟨hfirst, hrest⟩
    · refine (Gives.mirror (mirror_report (e := .expectedUnit) nofun)).next fun _ => ?_
      exact (Gives.mirror (.skipUntil _ fun _ h => h)).next fun _ => ih

theorem gives_sourceText :
    Gives file tokens (fun names text => ∀ u ∈ text.units, u.OfTokens file tokens names)
      sourceText := by
  refine (Gives.mirror mirror_currentSpan).bind fun start hstart => ?_
  obtain ⟨-, hstart⟩ := hstart
  refine Gives.look.next fun c => ?_
  refine (Gives.mirror mirror_remaining).next fun bound => ?_
  refine (gives_unitsWithin bound).bind fun units _ => ?_
  refine (Gives.mirror (mirror_spanSince hstart c.consumed)).next fun span => ?_
  exact .pure fun _ h _ => h

end Items

theorem isToken_of_alike {names : Names} {errors : Nat} {i i' : Syntax.Identifier}
    (h : i.Alike (Frame.ofStatement file tokens names errors) i') :
    i.IsToken file tokens names := by
  obtain ⟨text, hname, hbroken | ⟨kind, hkind, u, hu, rfl, rfl, hspan⟩⟩ := h.name
  · exact hbroken.elim
  · exact ⟨u, hu, hkind, hname, hspan⟩

/-- Nothing is made up in a statement that is read from tokens. -/
theorem contained_of_tokens {names : Names} {stmt : Instantiation}
    (htokens : ∀ t ∈ tokens, t.kind = .error →
      ∃ d ∈ ds, d.code = Problem.code ∧ d.span = t.span file)
    (h : stmt.OfTokens file tokens names) : stmt.Contained file tokens ds names := by
  obtain ⟨errors, halike⟩ := h
  refine ⟨halike.nonempty, fun l hl => ?_⟩
  have hfits := Syntax.allFit_instantiation halike l hl
  cases l with
  | name i =>
    obtain ⟨_, hi⟩ := hfits
    exact isToken_of_alike hi
  | flaw span =>
    obtain ⟨_, u, hu, herror, rfl⟩ := hfits
    exact ⟨u, hu, herror, rfl, htokens u hu herror⟩

/-- Parsing a text gives a tree that is read from its tokens, after the reports of the lexer. -/
theorem parsingText_ofTokens (file : Nat) (content : String) (s : Session) :
    ∃ text t ds, (parsingText sourceText file content).run.run s = (.ok text, t) ∧
      (parsingText sourceText file content).run.emitted s = (lex file content).2 ++ ds ∧
      (∀ d ∈ ds, d.code = SyntaxError.code) ∧
      ∀ u ∈ text.units, u.OfTokens file (lex file content).1 t.names := by
  rcases hrun : (sourceText.task { file := file, rest := (lex file content).1 }).run
    ((Task.emitAll (lex file content).2).run s).2 with ⟨⟨text, c⟩, t⟩
  have hinside : Cursor.Inside file (lex file content).1
      { file := file, rest := (lex file content).1 } :=
    ⟨cursors_ofFile file _, fun _ ht => ht, nofun⟩
  obtain ⟨hafter, hunits⟩ := gives_sourceText _ _ _ _ _ hinside hrun
  obtain ⟨hparse, hemitted⟩ := parsingText_run hrun hafter.cursors.misuse
  exact ⟨text, t, _, hparse, hemitted, fun _ hd => code_of_mem_task hd, hunits t.names (.refl _)⟩

/-- Parsing a text gives a tree whose statements are contained, after the reports of the lexer. -/
theorem contained_parsingText (file : Nat) (content : String) (s : Session) :
    ∃ text t ds, (parsingText sourceText file content).run.run s = (.ok text, t) ∧
      (parsingText sourceText file content).run.emitted s = (lex file content).2 ++ ds ∧
      (∀ d ∈ ds, d.code = SyntaxError.code) ∧
      ∀ u ∈ text.units, ∀ i ∈ u.items,
        i.Contained file (lex file content).1 (lex file content).2 t.names := by
  obtain ⟨text, t, ds, hparse, hemitted, hcodes, hunits⟩ := parsingText_ofTokens file content s
  refine ⟨text, t, ds, hparse, hemitted, hcodes, fun u hu i hi stmt hstmt => ?_⟩
  exact contained_of_tokens (fun _ ht => exists_report_of_error ht)
    ((hunits u hu).items i hi stmt hstmt)

end Parser

/-- The code of a statement without instances. -/
def noInstancesCode : Code := ⟨.error, 301⟩

/-- Work that never says that a statement has no instances. -/
def Pairing.instanced (known : Nat → Nat → Prop) : Pairing where
  name _ _ _ := True
  known := known
  diag d _ := d.code ≠ noInstancesCode
  broken := True

namespace Run

open Lowering (Context NoticeLevel Lowers)

variable {ctx : Context} {n : Nat} {f : SourceFile}

/-- Lowering what was parsed never finds a statement without instances. -/
theorem code_of_mem_lowered (hf : ctx.sources.file n = .ok f) {s t : Session} {text : SourceText}
    (halike : text.Alike (Frame.alone f.content n s t) text) :
    ∀ d ∈ (Lowering.sourceText ctx text).run.emitted t, d.code ≠ noInstancesCode := by
  have htext : Lowers (Frame.alone f.content n s t)
      (Pairing.ofText f.content n n (fun _ _ => True) (t.names.Same t.names) True)
      (fun _ _ => True) ctx ctx :=
    lowers_ofText hf hf rfl rfl rfl (fun _ _ h => h) (fun _ _ _ => trivial) fun _ _ _ => trivial
  have hlowers : Lowers (Frame.alone f.content n s t) (.instanced (t.names.Same t.names))
      (fun _ _ => True) ctx ctx := {
    known := htext.known, kept := htext.kept, entered := fun _ _ _ _ => trivial
    flaw := htext.flaw, text := htext.text, number := htext.number
    notice := fun _ _ _ _ => by
      show (⟨.warning, 300⟩ : Code) ≠ noInstancesCode
      decide }
  have hfaults (g g' : Lowering.Fault) (h : g.Alike (Frame.alone f.content n s t) g') :
      g.diagnostic.code ≠ noInstancesCode := by
    cases h with
    | malformed _ =>
      show (⟨.error, 300⟩ : Code) ≠ noInstancesCode
      decide
  rcases hrun : (Lowering.sourceText ctx text).run.run t with ⟨result, u⟩
  obtain ⟨_, -, -, hdiags, -⟩ := SessionM.Agree.run_self hrun
    (Lowering.agree_sourceText hlowers hfaults halike) {
      name := fun _ _ _ _ _ => trivial
      known := fun _ _ h => h
      broken := fun _ => trivial }
  exact List.forall₂_same.mp hdiags

theorem code_of_mem_file (hf : ctx.sources.file n = .ok f) (s : Session) :
    ∀ d ∈ (file ctx n).run.emitted s, d.code ≠ noInstancesCode := by
  obtain ⟨text, t, hparse, halike, -⟩ := Parser.parsing_alone hf s
  obtain ⟨_, _, ds, -, hemitted, hcodes, -⟩ := Parser.contained_parsingText n f.content s
  intro d hd
  rw [file, SessionM.emitted_bind hparse, (Parser.parsing_run hf Parser.sourceText s).2, hemitted,
    List.append_assoc, List.mem_append, List.mem_append] at hd
  rcases hd with hd | hd | hd
  · rw [code_of_mem_lex hd]
    decide
  · rw [hcodes d hd]
    decide
  · exact code_of_mem_lowered hf halike d hd

/-- No run says that a statement has no instances. -/
theorem code_of_mem_texts (files : List (String × String)) (level : NoticeLevel) :
    ∃ o, texts files level = .ok o ∧ ∀ d ∈ o.diagnostics, d.code ≠ noInstancesCode := by
  have hfiles : ∀ n ∈ List.range (context files level).sources.files.size, ∀ s,
      (∀ d ∈ s.log.held.toList, d.code ≠ noInstancesCode) → ∃ modules t,
        (file (context files level) n).run.run s = (.ok modules, t) ∧
        (∀ d ∈ t.log.held.toList, d.code ≠ noInstancesCode) ∧ True := by
    intro n hn s hs
    have hlt : n < files.length := by
      rw [List.mem_range, size_context] at hn
      exact hn
    have hf : (context files level).sources.file n = .ok ⟨files[n].1, files[n].2⟩ :=
      file_context (List.getElem?_eq_getElem hlt)
    obtain ⟨modules, t, hrun, -⟩ := file_alone hf s
    refine ⟨modules, t, hrun, ?_, trivial⟩
    have hheld := Task.held_run (file (context files level) n).run s
    rw [hrun] at hheld
    rw [hheld, List.forall_mem_append]
    exact ⟨hs, code_of_mem_file hf s⟩
  obtain ⟨lists, t, hrun, hcodes, -⟩ :=
    SessionM.mapM_run (Q := fun _ _ _ _ => True) (s := {}) hfiles nofun
  have hall : texts files level = .ok (outcome (context files level) lists t) := all_of_run hrun
  exact ⟨_, hall, fun d hd => hcodes d (List.mem_mergeSort.mp hd)⟩

/-- Whatever is wrong with a text, the statements of its tree are made of its tokens: each has an
instance, its names are tokens, and what is no expression in it is a token reported by the lexer. So
no run says that a statement has no instances. -/
theorem recovery_contained (files : List (String × String)) (level : NoticeLevel) :
    (∀ (n : Fin files.length) (session : Session),
      ∃ text after ds, Parser.parseFile (Sources.ofList files) n session = .ok (text, after) ∧
        after.log.held.toList = session.log.held.toList ++ ds ∧
        ∀ unit ∈ text.units, ∀ stmt, Item.instantiation stmt ∈ unit.items →
          stmt.instances ≠ [] ∧
          ∀ l ∈ stmt.leaves, l.IsToken n (lex n files[n].2).1 ds after.names) ∧
      ∃ o, texts files level = .ok o ∧ ∀ d ∈ o.diagnostics, d.code ≠ noInstancesCode := by
  refine ⟨fun n session => ?_, code_of_mem_texts files level⟩
  have hf : (context files level).sources.file n = .ok ⟨files[n].1, files[n].2⟩ :=
    file_context (List.getElem?_eq_getElem n.isLt)
  obtain ⟨text, t, ds, hparse, hemitted, -, hitems⟩ :=
    Parser.contained_parsingText n files[n].2 session
  obtain ⟨hrun, -⟩ := Parser.parsing_run hf Parser.sourceText session
  have hheld := Task.held_run (Parser.parsingText Parser.sourceText n files[n].2).run session
  rw [hparse, hemitted] at hheld
  refine ⟨text, t, _, ?_, hheld, ?_⟩
  · show Parser.parseFile (context files level).sources n session = _
    rw [Parser.parseFile, hrun, hparse]
    rfl
  · intro unit hunit stmt hstmt
    obtain ⟨hinstances, hleaves⟩ := hitems unit hunit _ hstmt stmt rfl
    refine ⟨hinstances, fun l hl => ?_⟩
    have htoken := hleaves l hl
    cases l with
    | name i => exact htoken
    | flaw span =>
      obtain ⟨u, hu, herror, hspan, d, hd, hcode, hplace⟩ := htoken
      exact ⟨u, hu, herror, hspan, d, List.mem_append_left _ hd, hcode, hplace⟩

end Run

end Netlist
