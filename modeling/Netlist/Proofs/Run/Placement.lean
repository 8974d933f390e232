import Netlist.Proofs.Run.Alone
import Netlist.Proofs.Run.Interleaved

/-!
Two texts with the same tokens at different places. Each is the only file of its session, and a
placement says which spans of the one correspond to which of the other. Parsing the texts gives
trees that are alike, lowering these gives modules that are alike, and all diagnostics differ only
in where they point.
-/
namespace Netlist

open List (Forall₂)
open Lowering (Context Lowers)

/-- Which spans of two texts correspond. -/
structure Placement where
  span : Span → Span → Prop
  span_file : ∀ {s s' : Span}, span s s' → s.file = 0 ∧ s'.file = 0
  span_cover : ∀ {a a' b b' : Span}, span a a' → span b b' → span (a.cover b) (a'.cover b')
  span_atStart : ∀ {s s' : Span}, span s s' → span s.atStart s'.atStart

/-- The same token at corresponding places. -/
structure Placement.Tokens (S : Placement) (t t' : Token) : Prop where
  kind : t.kind = t'.kind
  text : t.text = t'.text
  span : S.span (t.span 0) (t'.span 0)

/-- What corresponds between parses of two texts, given which names do. -/
def Frame.ofPlacement (S : Placement) (sources sources' : Sources) (ahead : Nat)
    (name : Nat → Nat → Prop) : Frame where
  file := 0
  file' := 0
  ahead := ahead
  name _ := name
  span := S.span
  leaf _ text s s' := sources.snippet s = .ok text ∧ sources'.snippet s' = .ok text
  broken := True
  flaw _ _ := True
  opens := True
  span_file := S.span_file
  span_cover := S.span_cover
  span_atStart := S.span_atStart
  flaw_of_broken _ := trivial

def Pairing.ofPlacement (S : Placement) (name known : Nat → Nat → Prop) : Pairing where
  name _ := name
  known := known
  diag := Diagnostic.Alike S.span
  broken := True

variable {S : Placement} {ahead : Nat} {name : Nat → Nat → Prop}

theorem serves_ofPlacement {sources sources' : Sources} (known : Nat → Nat → Prop) :
    Parser.Serves (Frame.ofPlacement S sources sources' ahead name)
      (Pairing.ofPlacement S name known) where
  name _ _ _ h := h
  broken h := h
  diag _ _ _ h := ⟨h, rfl, rfl⟩

/-- Names correspond that are the same text in the end. -/
theorem holds_ofPlacement {known : Nat → Nat → Prop} {s t s' t' : Session}
    (hknown : ∀ i j, known i j → s.names.Same s'.names i j) :
    (Pairing.ofPlacement S (t.names.Same t'.names) known).Holds s t s' t' where
  name text _ _ hi hj := ⟨text, hi, hj⟩
  known := hknown
  broken _ := trivial

section Texts

variable {ctx ctx' : Context} {f f' : SourceFile} (hf : ctx.sources.file 0 = .ok f)
  (hf' : ctx'.sources.file 0 = .ok f')

include hf hf'

/-- Tokens at corresponding places have the texts of their spans on both sides. -/
theorem tokens_ofPlacement {ts ts' : List Token} (h : Forall₂ S.Tokens ts ts')
    (hts : ∀ t ∈ ts, t ∈ (lex 0 f.content).1) (hts' : ∀ t ∈ ts', t ∈ (lex 0 f'.content).1) :
    Forall₂ (Frame.ofPlacement S ctx.sources ctx'.sources ahead name).Tokens ts ts' := by
  induction h with
  | nil => exact .nil
  | @cons t t' ts ts' ht _ ih =>
    obtain ⟨hmem, hrest⟩ := List.forall_mem_cons.mp hts
    obtain ⟨hmem', hrest'⟩ := List.forall_mem_cons.mp hts'
    have htext : ctx.sources.snippet (t.span 0) = .ok t.text := snippet_of_mem_lex hf hmem
    have htext' : ctx'.sources.snippet (t'.span 0) = .ok t.text := by
      rw [ht.text]
      exact snippet_of_mem_lex hf' hmem'
    exact .cons ⟨ht.kind, ht.text, ht.span, ⟨htext, htext'⟩, fun _ => trivial⟩ (ih hrest hrest')

omit hf hf' in
theorem lowers_ofPlacement {name' N : Nat → Nat → Prop} (hlevel : ctx.level = ctx'.level)
    (hknown : ∀ i j, name i j → known i j) (hkept : ∀ i j, name i j → N i j)
    (hentered : ∀ i j, name' i j → N i j) :
    Lowers (Frame.ofPlacement S ctx.sources ctx'.sources ahead name)
      (Pairing.ofPlacement S name' known) N ctx ctx' where
  known _ := hknown
  kept _ := hkept
  entered _ := hentered
  flaw _ := trivial
  text h := h
  number _ _ := .inl trivial
  notice label s s' hs := ⟨hs, by rw [hlevel]; rfl, rfl⟩

end Texts

section Units

open Syntax (DesignUnit)

variable {ctx ctx' : Context} {names names' : Names} {us us' : List DesignUnit}

/-- Units that are alike are lowered alike, in any sessions that know their names. -/
theorem lowered_ofPlacement (hlevel : ctx.level = ctx'.level)
    (hunits : Forall₂ (DesignUnit.Alike (Frame.ofPlacement S ctx.sources ctx'.sources ahead
      (names.Same names'))) us us')
    {s s' : Session} (hs : names.Extends s.names) (hs' : names'.Extends s'.names) :
    ∃ modules t modules' t',
      (us.mapM (Lowering.designUnit ctx)).run.run s = (.ok modules, t) ∧
      (us'.mapM (Lowering.designUnit ctx')).run.run s' = (.ok modules', t') ∧
      (∀ later later', t.names.Extends later → t'.names.Extends later' →
        Forall₂ (Design.Module.Alike (later.Same later') S.span) modules modules') ∧
      Forall₂ (Diagnostic.Alike S.span) ((us.mapM (Lowering.designUnit ctx)).run.emitted s)
        ((us'.mapM (Lowering.designUnit ctx')).run.emitted s') := by
  rcases hrun : (us.mapM (Lowering.designUnit ctx)).run.run s with ⟨result, t⟩
  rcases hrun' : (us'.mapM (Lowering.designUnit ctx')).run.run s' with ⟨result', t'⟩
  have hmore := Task.extends_of_run hrun
  have hmore' := Task.extends_of_run hrun'
  have hagree (later later' : Names) (hlater : t.names.Extends later)
      (hlater' : t'.names.Extends later') :
      Worked (Forall₂ (Design.Module.Alike (later.Same later') S.span)) result result' ∧
        Forall₂ (Diagnostic.Alike S.span) ((us.mapM (Lowering.designUnit ctx)).run.emitted s)
          ((us'.mapM (Lowering.designUnit ctx')).run.emitted s') := by
    have hlowers : Lowers (Frame.ofPlacement S ctx.sources ctx'.sources ahead (names.Same names'))
        (Pairing.ofPlacement S (t.names.Same t'.names) (names.Same names')) (later.Same later')
        ctx ctx' := by
      apply lowers_ofPlacement hlevel
      · exact fun _ _ h => h
      · intro i j h
        exact h.mono ((hs.trans hmore).trans hlater) ((hs'.trans hmore').trans hlater')
      · intro i j h
        exact h.mono hlater hlater'
    have hfaults (g g' : Lowering.Fault)
        (h : g.Alike (Frame.ofPlacement S ctx.sources ctx'.sources ahead (names.Same names')) g') :
        Diagnostic.Alike S.span g.diagnostic g'.diagnostic := by
      cases h with
      | malformed hspan => exact ⟨hspan, rfl, rfl⟩
    have hholds : (Pairing.ofPlacement S (t.names.Same t'.names) (names.Same names')).Holds
        s ((us.mapM (Lowering.designUnit ctx)).run.run s).2
        s' ((us'.mapM (Lowering.designUnit ctx')).run.run s').2 := by
      rw [hrun, hrun']
      exact holds_ofPlacement fun _ _ h => h.mono hs hs'
    have hpaired : SessionM.Agree _ (Forall₂ (Design.Module.Alike (later.Same later') S.span))
        (us.mapM (Lowering.designUnit ctx)) (us'.mapM (Lowering.designUnit ctx')) :=
      .mapM hunits fun _ _ hu => Lowering.agree_designUnit hlowers hfaults hu
    have hboth := Paired.run hpaired hholds
    rw [hrun, hrun'] at hboth
    exact ⟨hboth.1, hboth.2.1⟩
  obtain ⟨hworked, hdiags⟩ := hagree t.names t'.names (.refl _) (.refl _)
  cases hworked with
  | @ok modules modules' _ =>
    refine ⟨modules, t, modules', t', rfl, rfl, ?_, hdiags⟩
    intro later later' hlater hlater'
    obtain ⟨⟨h⟩, -⟩ := hagree later later' hlater hlater'
    exact h

end Units

/-- The same diagnostic with its spans moved. -/
def Diagnostic.mapSpans (g : Span → Span) (d : Diagnostic) : Diagnostic :=
  { d with
    span := g d.span
    labels := d.labels.map fun l => { l with span := g l.span } }

namespace Design

/-- The same module with its spans moved. -/
def ShownModule.mapSpans (g : Span → Span) (m : ShownModule) : ShownModule :=
  { m with instances := m.instances.map fun i => { i with span := g i.span }, span := g m.span }

end Design

section Moved

variable {R : Span → Span → Prop} {f g : Span → Span} (hfg : ∀ s s', R s s' → f s = g s')
  {names names' : Names}

include hfg

theorem Diagnostic.Alike.mapSpans {d d' : Diagnostic} (h : d.Alike R d') :
    d.mapSpans f = d'.mapSpans g := by
  obtain ⟨hspan, hsame, hlabels⟩ := h
  have hnone : d'.labels = [] := by
    rw [hsame] at hlabels
    exact hlabels
  rw [Diagnostic.mapSpans, Diagnostic.mapSpans, hlabels, hnone, hfg _ _ hspan, hsame]
  rfl

private theorem instances_mapSpans {is is' : List Design.Instance}
    (h : Forall₂ (Design.Instance.Alike (names.Same names') R) is is') :
    ∃ vs vs', is.mapM (·.shown names) = .ok vs ∧ is'.mapM (·.shown names') = .ok vs' ∧
      (vs.map fun i => { i with span := f i.span }) =
        vs'.map fun i => { i with span := g i.span } := by
  induction h with
  | nil => exact ⟨[], [], rfl, rfl, rfl⟩
  | @cons i i' is is' hi _ ih =>
    obtain ⟨name, hname, hname'⟩ := hi.name.text
    obtain ⟨module, hmodule, hmodule'⟩ := hi.module.text
    obtain ⟨generics, hgenerics, hgenerics'⟩ := Design.Expr.Alike.texts hi.generics
    obtain ⟨ports, hports, hports'⟩ := Design.Expr.Alike.texts hi.ports
    obtain ⟨vs, vs', hvs, hvs', hsame⟩ := ih
    have hshown : i.shown names = .ok ⟨name, module, generics, ports, i.span⟩ := by
      rw [Design.Instance.shown, hname, hmodule, hgenerics, hports]
      rfl
    have hshown' : i'.shown names' = .ok ⟨name, module, generics, ports, i'.span⟩ := by
      rw [Design.Instance.shown, hname', hmodule', hgenerics', hports']
      rfl
    refine ⟨_ :: vs, _ :: vs', by rw [List.mapM_cons, hshown, hvs]; rfl,
      by rw [List.mapM_cons, hshown', hvs']; rfl, ?_⟩
    rw [List.map_cons, List.map_cons, hsame, hfg _ _ hi.span]

/-- Modules that are alike are shown alike, wherever they stand. -/
theorem modules_mapSpans {ms ms' : List Design.Module}
    (h : Forall₂ (Design.Module.Alike (names.Same names') R) ms ms') :
    ∃ vs vs', ms.mapM (·.shown names) = .ok vs ∧ ms'.mapM (·.shown names') = .ok vs' ∧
      vs.map (·.mapSpans f) = vs'.map (·.mapSpans g) := by
  induction h with
  | nil => exact ⟨[], [], rfl, rfl, rfl⟩
  | @cons m m' ms ms' hm _ ih =>
    obtain ⟨name, hname, hname'⟩ := hm.name.text
    obtain ⟨is, is', his, his', hinstances⟩ := instances_mapSpans hfg hm.instances
    obtain ⟨vs, vs', hvs, hvs', hsame⟩ := ih
    have hshown : m.shown names = .ok ⟨name, is, m.span⟩ := by
      rw [Design.Module.shown, hname, his]
      rfl
    have hshown' : m'.shown names' = .ok ⟨name, is', m'.span⟩ := by
      rw [Design.Module.shown, hname', his']
      rfl
    refine ⟨_ :: vs, _ :: vs', by rw [List.mapM_cons, hshown, hvs]; rfl,
      by rw [List.mapM_cons, hshown', hvs']; rfl, ?_⟩
    rw [List.map_cons, List.map_cons, hsame]
    simp only [Design.ShownModule.mapSpans, hinstances, hfg _ _ hm.span]

end Moved

end Netlist
