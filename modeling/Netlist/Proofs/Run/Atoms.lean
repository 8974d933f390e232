import Netlist.Proofs.Lowering.Parsed
import Netlist.Proofs.Run.Contained

/-!
A file from its tokens to its atoms. From any session it is parsed and lowered; each name of its
tree is a token or was made up where none was, each atom that lowering keeps is a token of its kind,
and the modules have what it is lowered to, in the same order.
-/
namespace Netlist

open List (Forall₂)

namespace Syntax

/-- The names of a statement, wherever they stand. -/
def Instantiation.identifiers (s : Instantiation) : List Identifier :=
  s.leaves.filterMap fun
    | .name i => some i
    | .flaw _ => none

def Item.identifiers : Item → List Identifier
  | .instantiation stmt => stmt.identifiers
  | .skipped _ _ => []
  | .error _ => []

def DesignUnit.identifiers (u : DesignUnit) : List Identifier :=
  u.name :: (u.items.flatMap Item.identifiers ++ u.endLabel.toList)

/-- All names of a tree. -/
def SourceText.identifiers (t : SourceText) : List Identifier :=
  t.units.flatMap DesignUnit.identifiers

/-- An atom that is a token of its kind. Only the name of a unit can be made up. -/
def Atom.Stands (file : Nat) (tokens : List Token) (names : Names) : Atom → Prop
  | .name i => i.Stands file tokens names
  | .system i => ∃ t ∈ tokens, t.kind = .systemIdentifier ∧
      names.resolve? i.name = some t.text ∧ i.span = t.span file
  | .keyword _ => True
  | .number span => ∃ t ∈ tokens, t.kind.IsNumber ∧ span = t.span file
  | .real span => ∃ t ∈ tokens, t.kind = .realLiteral ∧ span = t.span file
  | .string span => ∃ t ∈ tokens, t.kind = .stringLiteral ∧ span = t.span file

variable {file : Nat} {tokens : List Token} {names : Names}

theorem Atom.Fits.stands {errors : Nat} {a : Atom}
    (h : a.Fits (Frame.ofStatement file tokens names errors)) : a.Stands file tokens names := by
  cases a with
  | name i =>
    obtain ⟨_, hi⟩ := h
    exact .inl (Parser.isToken_of_alike hi)
  | system i =>
    obtain ⟨_, hi⟩ := h
    obtain ⟨text, hname, t, ht, hkind, rfl, hspan⟩ := hi.name
    exact ⟨t, ht, hkind, hname, hspan⟩
  | keyword kind => trivial
  | number span =>
    obtain ⟨kind, text, _, hkind, t, ht, rfl, -, hspan⟩ := h
    exact ⟨t, ht, hkind, hspan⟩
  | real span =>
    obtain ⟨text, _, t, ht, hkind, -, hspan⟩ := h
    exact ⟨t, ht, hkind, hspan⟩
  | string span =>
    obtain ⟨text, _, t, ht, hkind, -, hspan⟩ := h
    exact ⟨t, ht, hkind, hspan⟩

theorem DesignUnit.OfTokens.identifiers {u : DesignUnit} (h : u.OfTokens file tokens names) :
    ∀ i ∈ u.identifiers, i.Stands file tokens names := by
  refine List.forall_mem_cons.mpr ⟨h.name, List.forall_mem_append.mpr ⟨?_, ?_⟩⟩
  · intro i hi
    obtain ⟨item, hitem, hi⟩ := List.mem_flatMap.mp hi
    cases item with
    | instantiation stmt =>
      obtain ⟨errors, halike⟩ := h.items _ hitem stmt rfl
      obtain ⟨l, hl, hname⟩ := List.mem_filterMap.mp hi
      cases l with
      | name j =>
        obtain rfl : j = i := Option.some.inj hname
        obtain ⟨_, hj⟩ := allFit_instantiation halike _ hl
        exact .inl (Parser.isToken_of_alike hj)
      | flaw span => cases hname
    | skipped leading span => cases hi
    | error span => cases hi
  · exact fun i hi => h.label i (Option.mem_toList.mp hi)

theorem DesignUnit.OfTokens.atoms {u : DesignUnit} (h : u.OfTokens file tokens names)
    (ctx : Lowering.Context) : ∀ a ∈ u.atoms ctx, a.Stands file tokens names := by
  refine List.forall_mem_cons.mpr ⟨h.name, fun a ha => ?_⟩
  obtain ⟨item, hitem, ha⟩ := List.mem_flatMap.mp ha
  cases item with
  | instantiation stmt =>
    obtain ⟨errors, halike⟩ := h.items _ hitem stmt rfl
    simp only [Item.atoms] at ha
    split at ha
    · cases ha
    · exact (fits_instantiation halike a ha).stands
  | skipped leading span => cases ha
  | error span => cases ha

end Syntax

namespace Run

open Lowering (Context AllLowered)

variable {ctx : Context} {n : Nat} {f : SourceFile}

/-- What is known of a file that is read: its names in `names` when its tree is there, and its
modules in `later`. -/
structure Read (ctx : Context) (n : Nat) (names later : Names) (tree : Syntax.SourceText)
    (modules : List Design.Module) : Prop where
  units : ∃ f, ctx.sources.file n = .ok f ∧
    ∀ u ∈ tree.units, u.OfTokens n (lex n f.content).1 names
  lowered : AllLowered ctx later (tree.atoms ctx) (modules.flatMap Design.Module.atoms)

theorem Read.atoms {names later : Names} {tree : Syntax.SourceText} {modules : List Design.Module}
    (h : Read ctx n names later tree modules) :
    ∃ f, ctx.sources.file n = .ok f ∧
      ∀ a ∈ tree.atoms ctx, a.Stands n (lex n f.content).1 names := by
  obtain ⟨f, hf, hunits⟩ := h.units
  refine ⟨f, hf, fun a ha => ?_⟩
  obtain ⟨u, hu, ha⟩ := List.mem_flatMap.mp ha
  exact (hunits u hu).atoms ctx a ha

/-- Any file can be read, from any session. -/
theorem file_read (hf : ctx.sources.file n = .ok f) (s : Session) :
    ∃ tree t modules u,
      (Parser.parsing Parser.sourceText ctx.sources n).run.run s = (.ok tree, t) ∧
      (Lowering.sourceText ctx tree).run.run t = (.ok modules, u) ∧
      Read ctx n t.names u.names tree modules := by
  obtain ⟨tree, t, hparse, halike, -⟩ := Parser.parsing_alone hf s
  obtain ⟨tree', t', _, hparse', -, -, hunits⟩ := Parser.parsingText_ofTokens n f.content s
  have hsame := hparse.symm.trans (((Parser.parsing_run hf Parser.sourceText s).1).trans hparse')
  obtain ⟨rfl, rfl⟩ : tree = tree' ∧ t = t' := by
    cases hsame
    exact ⟨rfl, rfl⟩
  have hfurnished : Lowering.Furnished ctx t.names (Frame.alone f.content n s t) := {
    name := by
      rintro _ i i' ⟨text, hi, -⟩
      exact ⟨text, hi⟩
    leaf := by
      rintro _ text span _ ⟨hrange, hslice, -⟩
      refine ⟨text, snippet_eq (hrange.file ▸ hf) ?_⟩
      rw [SourceFile.slice?, SourceFile.chars, hslice, Option.map_some, String.ofList_toList] }
  have hserved : ∀ u ∈ tree.units, ∀ v ∈ u.visits, Lowering.Served ctx t.names v := fun u hu =>
    Lowering.served_unit hfurnished (List.forall₂_same.mp halike.units u hu)
  obtain ⟨modules, u, hlower, hlowered⟩ :=
    Lowering.lowered_sourceText hserved (Names.Extends.refl t.names)
  exact ⟨tree, t, modules, u, hparse, hlower, ⟨f, hf, hunits⟩, hlowered⟩

end Run

end Netlist
