import Netlist.Proofs.Run.Atoms
import Netlist.Proofs.Session.Points
import Netlist.Proofs.Token.Shapes

/-!
The identity of names. Files are parsed and lowered one after the other, in a session that may have
names already. A name is entered as it is spelled when its token is parsed, and without its
backslash when its tree is lowered; what it is lowered to depends on its spelling alone, in all
files of a run and at every point from then on.
-/
namespace Netlist

open Lowering (Context Lowered)

section Spellings

variable {ctx : Context} {file : Nat} {text : String}

/-- The name is a token with this text. -/
def Syntax.Identifier.WrittenAs (ctx : Context) (file : Nat) (text : String)
    (i : Syntax.Identifier) : Prop :=
  ∃ f, ctx.sources.file file = .ok f ∧
    ∃ t ∈ (lex file f.content).1, t.kind.IsName ∧ t.text = text ∧ i.span = t.span file

/-- The name that an atom is. -/
def Syntax.Atom.identifier? : Syntax.Atom → Option Syntax.Identifier
  | .name i => some i
  | .system i => some i
  | _ => none

variable {f : SourceFile} {i : Syntax.Identifier} {names later : Names}

/-- What is read where the name stands. -/
theorem Syntax.Identifier.WrittenAs.snippet (h : i.WrittenAs ctx file text) :
    ctx.sources.snippet i.span = .ok text ∧ Piece.SpokenText text.toList := by
  obtain ⟨f, hf, t, ht, hkind, rfl, hspan⟩ := h
  exact ⟨hspan ▸ snippet_of_mem_lex hf ht, spokenText_of_mem_lex ht hkind⟩

theorem text_of_atStart {span : Span} (hspan : span = span.atStart)
    (h : ctx.sources.snippet span = .ok text) : text.toList = [] := by
  have hstop : span.stop = span.start := congrArg Span.stop hspan
  cases hf : ctx.sources.file span.file with
  | error m => simp [Sources.snippet, hf, bind, Except.bind] at h
  | ok f =>
    have hslice : f.slice? span.start span.start =
        (Text.dropBytes? span.start f.chars).map fun _ => "" := by
      cases hdrop : Text.dropBytes? span.start f.chars <;>
        simp [SourceFile.slice?, Text.slice?, hdrop, Text.takeBytes?]
    simp only [Sources.snippet, hf, bind, Except.bind, hstop, hslice] at h
    cases hdrop : Text.dropBytes? span.start f.chars with
    | none =>
      rw [hdrop] at h
      cases h
    | some cs =>
      rw [hdrop] at h
      cases h
      rfl

/-- A name that is written somewhere is a token there, and resolves to what is written. -/
theorem Syntax.Identifier.Stands.resolve? (hf : ctx.sources.file file = .ok f)
    (h : i.Stands file (lex file f.content).1 names) (hwritten : i.WrittenAs ctx file text) :
    names.resolve? i.name = some text := by
  obtain ⟨hsnippet, hspoken⟩ := hwritten.snippet
  obtain ⟨t, ht, -, hname, hspan⟩ | ⟨-, hempty⟩ := h
  · rw [hspan, snippet_of_mem_lex hf ht] at hsnippet
    rw [hname, Except.ok.inj hsnippet]
  · exact absurd (text_of_atStart hempty hsnippet) hspoken.ne_nil

theorem bareText_system (h : Piece.SystemText text.toList) : bareText text = text := by
  unfold bareText
  split
  next bare hbare =>
    rw [hbare] at h
    cases h
  next => rfl

/-- What a written name is lowered to has its spelling without the backslash. -/
theorem Lowering.Lowered.resolve? {a : Syntax.Atom} {index : Nat}
    (hf : ctx.sources.file file = .ok f) (hstands : a.Stands file (lex file f.content).1 names)
    (hlater : names.Extends later) (h : Lowered ctx later a (.id index))
    (hi : a.identifier? = some i) (hwritten : i.WrittenAs ctx file text) :
    later.resolve? index = some (bareText text) := by
  cases h with
  | name hbare =>
    obtain rfl := Option.some.inj hi
    obtain ⟨spelled, hspelled, hbare, -⟩ := hbare
    have hname := hlater.resolve? (hstands.resolve? hf hwritten)
    obtain rfl := Option.some.inj (hspelled.symm.trans hname)
    exact hbare
  | system j =>
    obtain rfl := Option.some.inj hi
    obtain ⟨t, ht, hkind, hname, hspan⟩ := hstands
    obtain ⟨hsnippet, -⟩ := hwritten.snippet
    rw [hspan, snippet_of_mem_lex hf ht] at hsnippet
    obtain rfl := Except.ok.inj hsnippet
    rw [bareText_system (systemText_of_mem_lex ht hkind)]
    exact hlater.resolve? hname
  | keyword _ => cases hi

/-- A name of a design is known once it is lowered. -/
theorem Lowering.Lowered.known {tokens : List Token} {a : Syntax.Atom} {index : Nat}
    (hstands : a.Stands file tokens names) (hlater : names.Extends later)
    (h : Lowered ctx later a (.id index)) : ∃ text, later.resolve? index = some text := by
  cases h with
  | name hbare =>
    obtain ⟨_, -, hbare, -⟩ := hbare
    exact ⟨_, hbare⟩
  | system i =>
    obtain ⟨t, -, -, hname, -⟩ := hstands
    exact ⟨_, hlater.resolve? hname⟩
  | keyword hindex => exact ⟨_, hindex⟩

end Spellings

namespace Run

variable {ctx : Context}

/-- A file that is read in a run: its tree and its modules, and after how many steps each of them
is there. -/
structure Reading where
  file : Nat
  tree : Syntax.SourceText
  modules : List Design.Module
  parsed : Nat
  lowered : Nat

namespace Reading

/-- The reading that begins `k` steps later. -/
def shift (k : Nat) (r : Reading) : Reading :=
  { r with parsed := k + r.parsed, lowered := k + r.lowered }

/-- The file is parsed from some point on, and what comes of it is lowered. -/
structure TakesPlace (ctx : Context) (sessions : Nat → Session) (r : Reading) : Prop where
  parses : ∃ begun ≤ r.parsed, (Parser.parsing Parser.sourceText ctx.sources r.file).run.run
    (sessions begun) = (.ok r.tree, sessions r.parsed)
  lowers : (Lowering.sourceText ctx r.tree).run.run (sessions r.parsed) =
    (.ok r.modules, sessions r.lowered)
  order : r.parsed ≤ r.lowered
  read : Read ctx r.file (sessions r.parsed).names (sessions r.lowered).names r.tree r.modules

variable {r : Reading}

theorem TakesPlace.later {sessions after : Nat → Session} {k : Nat}
    (h : r.TakesPlace ctx sessions) (hafter : ∀ n, after (k + n) = sessions n) :
    (r.shift k).TakesPlace ctx after := by
  obtain ⟨⟨begun, hbegun, hparse⟩, hlower, horder, hread⟩ := h
  have hparsed : after (r.shift k).parsed = sessions r.parsed := hafter _
  have hlowered : after (r.shift k).lowered = sessions r.lowered := hafter _
  refine ⟨⟨k + begun, Nat.add_le_add_left hbegun k, ?_⟩, ?_, Nat.add_le_add_left horder k, ?_⟩
  · rw [hafter, hparsed]
    exact hparse
  · rw [hparsed, hlowered]
    exact hlower
  · rw [hparsed, hlowered]
    exact hread

/-- A reading takes place in its own work and whatever follows. -/
theorem TakesPlace.of_agree {sessions after : Nat → Session}
    (h : r.TakesPlace ctx sessions) (hafter : ∀ n ≤ r.lowered, after n = sessions n) :
    r.TakesPlace ctx after := by
  obtain ⟨⟨begun, hbegun, hparse⟩, hlower, horder, hread⟩ := h
  have hparsed := hafter r.parsed horder
  have hlowered := hafter r.lowered le_rfl
  refine ⟨⟨begun, hbegun, ?_⟩, ?_, horder, ?_⟩
  · rw [hafter begun (hbegun.trans horder), hparsed]
    exact hparse
  · rw [hparsed, hlowered]
    exact hlower
  · rw [hparsed, hlowered]
    exact hread

end Reading

theorem exists_reading {n : Nat} (hn : n < ctx.sources.files.size) (s : Session) :
    ∃ (r : Reading) (t : Session), r.file = n ∧ (file ctx n).run.run s = (.ok r.modules, t) ∧
      r.lowered = (file ctx n).run.turns s ∧ r.TakesPlace ctx ((file ctx n).points s) := by
  obtain ⟨f, hf⟩ := Sources.exists_file hn
  obtain ⟨tree, t, modules, u, hparse, hlower, hread⟩ := file_read hf s
  have hrun : (file ctx n).run.run s = (.ok modules, u) := (SessionM.run_bind hparse).trans hlower
  generalize hparser : Parser.parsing Parser.sourceText ctx.sources n = parser at hparse
  have hfile : file ctx n = parser >>= Lowering.sourceText ctx := by rw [← hparser]; rfl
  have hturns : (file ctx n).run.turns s =
      parser.run.turns s + 1 + (Lowering.sourceText ctx tree).run.turns t := by
    rw [hfile, SessionM.turns_bind hparse]
  have hparsed : (file ctx n).points s (parser.run.turns s) = t := by
    rw [hfile, SessionM.points_bind_of_le le_rfl, SessionM.points_turns hparse]
  have hlowered : (file ctx n).points s ((file ctx n).run.turns s) = u := SessionM.points_turns hrun
  refine ⟨⟨n, tree, modules, parser.run.turns s, (file ctx n).run.turns s⟩, u, rfl, hrun, rfl, ?_⟩
  constructor
  · refine ⟨0, Nat.zero_le _, ?_⟩
    rw [hparsed, hparser]
    exact hparse
  · rw [hparsed, hlowered]
    exact hlower
  · show parser.run.turns s ≤ (file ctx n).run.turns s
    omega
  · rw [hparsed, hlowered]
    exact hread

/-- In a run over files each of them is read in its turn. -/
theorem exists_readings {files : List Nat} (hfiles : ∀ n ∈ files, n < ctx.sources.files.size)
    (done : List (List Design.Module)) (s : Session) :
    ∃ (rs : List Reading) (t : Session), rs.map Reading.file = files ∧
      (List.mapM.loop (file ctx) files done).run.run s =
        (.ok (done.reverse ++ rs.map Reading.modules), t) ∧
      ∀ r ∈ rs, r.TakesPlace ctx (SessionM.points (List.mapM.loop (file ctx) files done) s) := by
  induction files generalizing done s with
  | nil =>
    refine ⟨[], s, rfl, ?_, List.forall_mem_nil _⟩
    rw [List.map_nil, List.append_nil]
    rfl
  | cons n files ih =>
    obtain ⟨r, t, rfl, hrun, hlowered, hplace⟩ :=
      exists_reading (hfiles n List.mem_cons_self) s
    obtain ⟨rs, u, rfl, hrest, hplaces⟩ :=
      ih (fun n hn => hfiles n (List.mem_cons_of_mem _ hn)) (r.modules :: done) t
    let k := (file ctx r.file).run.turns s + 1
    refine ⟨r :: rs.map (Reading.shift k), u, ?_, ?_, List.forall_mem_cons.mpr ⟨?_, ?_⟩⟩
    · rw [List.map_cons, List.map_map]
      rfl
    · rw [List.reverse_cons, List.append_assoc] at hrest
      rw [List.map_cons, List.map_map]
      exact (SessionM.run_bind hrun).trans hrest
    · refine hplace.of_agree fun m hm => SessionM.points_bind_of_le ?_
      rwa [← hlowered]
    · intro r' hr'
      obtain ⟨first, hfirst, rfl⟩ := List.mem_map.mp hr'
      exact (hplaces first hfirst).later fun m => SessionM.points_bind_add hrun m

section Identity

variable {sessions : Nat → Session} {r : Reading}

/-- From the point `n` on the index stands for one text. -/
def Keeps (sessions : Nat → Session) (n index : Nat) : Prop :=
  ∃ text, ∀ m ≥ n, (sessions m).names.resolve? index = some text

/-- A name that is written as `text` in the file of the reading is lowered to `index`. -/
def Reading.Translates (ctx : Context) (r : Reading) (text : String) (index : Nat) : Prop :=
  ∃ a i, (a, Design.Atom.id index) ∈
      (r.tree.atoms ctx).zip (r.modules.flatMap Design.Module.atoms) ∧
    a.identifier? = some i ∧ i.WrittenAs ctx r.file text

variable (hgrows : ∀ m n, m ≤ n → (sessions m).names.Extends (sessions n).names)

include hgrows

theorem keeps_of_known {n index : Nat}
    (h : ∃ text, (sessions n).names.resolve? index = some text) : Keeps sessions n index := by
  obtain ⟨text, hindex⟩ := h
  exact ⟨text, fun m hm => (hgrows n m hm).resolve? hindex⟩

theorem Reading.TakesPlace.identifiers (h : r.TakesPlace ctx sessions) :
    ∀ i ∈ r.tree.identifiers, Keeps sessions r.parsed i.name := by
  intro i hi
  obtain ⟨f, -, hunits⟩ := h.read.units
  obtain ⟨u, hu, hi⟩ := List.mem_flatMap.mp hi
  refine keeps_of_known hgrows ?_
  obtain ⟨t, -, -, hname, -⟩ | ⟨hname, -⟩ := (hunits u hu).identifiers i hi
  · exact ⟨_, hname⟩
  · exact ⟨_, hname⟩

theorem Reading.TakesPlace.ids (h : r.TakesPlace ctx sessions) :
    ∀ index, Design.Atom.id index ∈ r.modules.flatMap Design.Module.atoms →
      Keeps sessions r.lowered index := by
  intro index hindex
  obtain ⟨f, -, hatoms⟩ := h.read.atoms
  obtain ⟨a, ha, hlowered⟩ := h.read.lowered.exists_of_mem hindex
  exact keeps_of_known hgrows (hlowered.known (hatoms a ha) (hgrows _ _ h.order))

theorem Reading.TakesPlace.translates (h : r.TakesPlace ctx sessions) {text : String}
    {index n : Nat} (htext : r.Translates ctx text index) (hn : r.lowered ≤ n) :
    (sessions n).names.resolve? index = some (bareText text) := by
  obtain ⟨a, i, hpair, hi, hwritten⟩ := htext
  obtain ⟨f, hf, hatoms⟩ := h.read.atoms
  have hlowered := List.forall₂_zip h.read.lowered hpair
  refine (hgrows _ _ hn).resolve? ?_
  exact hlowered.resolve? hf (hatoms a (List.of_mem_zip hpair).1) (hgrows _ _ h.order) hi hwritten

end Identity

/-- What a run over files does with names. A name of a tree keeps its text once its file is parsed,
and one of a module once it is lowered. No white space belongs to a name, and two names anywhere are
lowered to one index exactly if they are spelled the same without the backslash of an escaped
one. -/
structure NamesKept (ctx : Context) (sessions : Nat → Session) (rs : List Reading) : Prop where
  places : ∀ r ∈ rs, r.TakesPlace ctx sessions
  identifiers : ∀ r ∈ rs, ∀ i ∈ r.tree.identifiers, Keeps sessions r.parsed i.name
  ids : ∀ r ∈ rs, ∀ index, Design.Atom.id index ∈ r.modules.flatMap Design.Module.atoms →
    Keeps sessions r.lowered index
  spelled : ∀ r ∈ rs, ∀ text index, r.Translates ctx text index →
    ∀ c ∈ text.toList, Piece.isSpace c = false
  same : ∀ r ∈ rs, ∀ r' ∈ rs, ∀ text text' index index', r.Translates ctx text index →
    r'.Translates ctx text' index' → (index = index' ↔ bareText text = bareText text')

/-- Whatever files are read, and whatever names the session has before, names keep their
identity. -/
theorem names_keep_identity {files : List Nat} (hfiles : ∀ n ∈ files, n < ctx.sources.files.size)
    {s : Session} (hs : s.names.Distinct) :
    ∃ (rs : List Reading) (t : Session), rs.map Reading.file = files ∧
      (files.mapM (file ctx)).run.run s = (.ok (rs.map Reading.modules), t) ∧
      NamesKept ctx ((files.mapM (file ctx)).points s) rs := by
  obtain ⟨rs, t, hfile, hrun, hplaces⟩ := exists_readings hfiles [] s
  have hgrows (m n : Nat) (h : m ≤ n) := (files.mapM (file ctx)).names_extends_points s h
  refine ⟨rs, t, hfile, hrun, hplaces, ?_, ?_, ?_, ?_⟩
  · exact fun r hr => (hplaces r hr).identifiers hgrows
  · exact fun r hr => (hplaces r hr).ids hgrows
  · rintro r - text index ⟨a, i, -, -, hwritten⟩
    exact hwritten.snippet.2.isSpace
  · intro r hr r' hr' text text' index index' htext htext'
    -- Both names are looked up at one point, behind both lowerings.
    let n := max r.lowered r'.lowered
    have hindex := (hplaces r hr).translates hgrows htext (le_max_left _ _ : _ ≤ n)
    have hindex' := (hplaces r' hr').translates hgrows htext' (le_max_right _ _ : _ ≤ n)
    constructor
    · rintro rfl
      exact Option.some.inj (hindex.symm.trans hindex')
    · intro hbare
      rw [← hbare] at hindex'
      exact (SessionM.names_distinct_points _ hs n).index_eq hindex hindex'

/-- Two files that name one module, the first one as an escaped name. -/
def twoSpellings : Context :=
  context [("a.sv", "module m; \\foo u (x); endmodule"), ("b.sv", "module n; foo v (y); endmodule")]
    .warning

theorem names_keep_identity_escaped :
    (∃ (rs : List Reading) (t : Session), rs.map Reading.file = [0, 1] ∧
      ([0, 1].mapM (file twoSpellings)).run.run {} = (.ok (rs.map Reading.modules), t) ∧
      NamesKept twoSpellings (([0, 1].mapM (file twoSpellings)).points {}) rs) ∧
    (([0, 1].mapM (file twoSpellings)).run.run {}).1.toOption.map
        (fun modules => modules.flatten.flatMap Design.Module.atoms) =
      some [.id 0, .id 2, .id 4, .id 3, .id 5, .id 6, .id 4, .id 7] :=
  ⟨names_keep_identity (by decide) Names.distinct_empty, by decide +kernel⟩

end Run

end Netlist
