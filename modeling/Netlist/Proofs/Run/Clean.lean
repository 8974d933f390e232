import Netlist.Proofs.Run.Alone

/-!
Files that are parsed without an error. The lexer lets a base stand without digits behind it and
lowering does not, so a statement with such a bare literal is dropped, with an error. Nothing else
is: every other statement gives all its instances.
-/
namespace Netlist

open List (Forall₂)
open Lowering (Context Lowers AllReadable LowerM isBareAt)
open Netlist.Syntax (SourceText Item DesignUnit)

/-- Whether a number that an item gives a value to is bare. -/
def Syntax.Item.isBare (sources : Sources) (i : Item) : Bool := i.numbers.any (isBareAt sources)

def Syntax.SourceText.items (text : SourceText) : List Item := text.units.flatMap DesignUnit.items

/-- All instances that the statements of a file ask for. -/
def Syntax.SourceText.instances (text : SourceText) : List Syntax.Instance :=
  text.items.flatMap Item.instances

/-- Work that emits no errors, on names that are known. -/
def Pairing.quiet (known : Nat → Nat → Prop) : Pairing where
  name _ _ _ := True
  known := known
  diag d _ := d.severity ≠ .error
  broken := True

theorem errors_quiet {known : Nat → Nat → Prop} {α : Type} {x : Task α} {s : Session}
    (h : Forall₂ (Pairing.quiet known).diag (x.emitted s) (x.emitted s)) :
    (x.run s).2.log.errors = s.log.errors :=
  Task.errors_eq fun d hd => List.forall₂_same.mp h d hd

theorem holds_quiet {names : Names} {s t : Session} (h : names.Extends s.names) :
    (Pairing.quiet (names.Same names)).Holds s t s t where
  name _ _ _ _ _ := trivial
  known := by
    rintro i j ⟨text, hi, hj⟩
    exact ⟨text, h.resolve? hi, h.resolve? hj⟩
  broken _ := trivial

namespace Run

variable {ctx : Context} {F : Frame} {names : Names}

/-- How much a list of items gives: an instance for each that it asks for unless the item is bare,
and an error for each bare item. -/
structure Counted (sources : Sources) (items : List Item) (s : Session)
    (instances : List Design.Instance) (t : Session) : Prop where
  instances : instances.length =
    ((items.filter fun i => !i.isBare sources).flatMap Item.instances).length
  errors : t.log.errors = s.log.errors + items.countP fun i => i.isBare sources

theorem Counted.append {sources : Sources} {is js : List Item} {s t u : Session}
    {as bs : List Design.Instance} (h : Counted sources is s as t)
    (h' : Counted sources js t bs u) : Counted sources (is ++ js) s (as ++ bs) u where
  instances := by
    rw [List.length_append, h.instances, h'.instances, List.filter_append, List.flatMap_append,
      List.length_append]
  errors := by
    rw [h'.errors, h.errors, List.countP_append, Nat.add_assoc]

theorem Counted.nil (sources : Sources) (s : Session) : Counted sources [] s [] s := ⟨rfl, rfl⟩

/-- What a sequence gives is what its parts give together. -/
theorem Counted.steps {γ α : Type} {sources : Sources} {items : γ → List Item}
    {instances : α → List Design.Instance} {cs : List γ} {as : List α} {s t : Session}
    (h : Steps (fun c s a t => Counted sources (items c) s (instances a) t) cs s as t) :
    Counted sources (cs.flatMap items) s (as.flatMap instances) t := by
  induction h with
  | nil s => exact .nil sources s
  | cons hfirst _ ih => exact hfirst.append ih

theorem allReadable_iff {i : Item} :
    AllReadable ctx i.numbers ↔ i.isBare ctx.sources = false := by
  simp [AllReadable, Syntax.Item.isBare]

section Clean

variable (hL : Lowers F (Pairing.quiet (names.Same names)) (fun _ _ => True) ctx ctx)
  (hclean : ¬ F.broken)

include hL hclean

/-- An item gives its instances, or an error if it is bare. -/
theorem counted_item {i : Item} (hi : i.Alike F i) (s : Session) (hs : names.Extends s.names) :
    ∃ instances t, (Lowering.reportingFaults (Lowering.item ctx i)).run.run s = (.ok instances, t) ∧
      names.Extends t.names ∧ Counted ctx.sources [i] s instances t := by
  rcases hrun : (Lowering.item ctx i).run.run.run s with ⟨result, t⟩
  obtain ⟨outcome, rfl, houtcome, hdiags, -⟩ :=
    SessionM.Agree.run_self hrun (Lowering.agree_item hL hi) (holds_quiet hs)
  have herrors : t.log.errors = s.log.errors := by
    have hquiet := errors_quiet hdiags
    rwa [hrun] at hquiet
  have hnames := hs.trans (Task.extends_of_run hrun)
  cases houtcome with
  | @value instances _ hread hvalue =>
    have hbare := allReadable_iff.mp hread
    refine ⟨instances, t, SessionM.run_bind hrun, hnames, ?_, ?_⟩
    · simp [hbare, hvalue.2]
    · simp [hbare, herrors]
  | @fault f _ hbroken _ =>
    have hbare : i.isBare ctx.sources = true := by
      by_contra hread
      exact hclean (hbroken (allReadable_iff.mpr (by simpa using hread)))
    refine ⟨[], t.emit f.diagnostic, SessionM.run_bind hrun, hnames, ?_, ?_⟩
    · simp [hbare]
    · have herror : f.diagnostic.severity = .error := by cases f <;> rfl
      simp [hbare, herrors, Session.emit, Log.emit, herror]

/-- A unit gives what its items give together. -/
theorem counted_unit {u : DesignUnit} (hu : u.Alike F u) (s : Session)
    (hs : names.Extends s.names) :
    ∃ m t, (Lowering.designUnit ctx u).run.run s = (.ok m, t) ∧ names.Extends t.names ∧
      Counted ctx.sources u.items s m.instances t := by
  obtain ⟨lists, t, hitems, ht, hsteps⟩ := SessionM.mapM_run
    (fun i hi => counted_item hL hclean (List.forall₂_same.mp hu.items i hi)) hs
  have hcounted : Counted ctx.sources (u.items.flatMap fun i => [i]) s (lists.flatMap id) t :=
    Counted.steps hsteps
  rcases hname : (Lowering.identifier u.name).run.run t with ⟨result, v⟩
  obtain ⟨name, rfl, -, hdiags, -⟩ :=
    SessionM.Agree.run_self hname (Lowering.agree_identifier hL hu.name) (holds_quiet ht)
  have hquiet := errors_quiet hdiags
  have hextends := Task.names_extends (Lowering.identifier u.name).run t
  rw [hname] at hquiet hextends
  refine ⟨⟨name, lists.flatten, u.span⟩, v, ?_, ht.trans hextends, ?_, ?_⟩
  · exact (SessionM.run_bind hitems).trans (SessionM.run_bind hname)
  · simpa using hcounted.instances
  · rw [hquiet]
    simpa using hcounted.errors

/-- A file gives what its units give together. -/
theorem counted_text {text : SourceText} (htext : text.Alike F text) {s : Session}
    (hs : names.Extends s.names) :
    ∃ modules t, (Lowering.sourceText ctx text).run.run s = (.ok modules, t) ∧
      Counted ctx.sources text.items s (modules.flatMap (·.instances)) t := by
  obtain ⟨modules, t, hrun, -, hsteps⟩ := SessionM.mapM_run
    (fun u hu => counted_unit hL hclean (List.forall₂_same.mp htext.units u hu)) hs
  exact ⟨modules, t, hrun, Counted.steps hsteps⟩

end Clean

/-- The names of a tree that was parsed serve a lowering that keeps quiet. -/
private theorem lowers_quiet {file : Nat} {f : SourceFile} (hf : ctx.sources.file file = .ok f)
    {s t : Session} :
    Lowers (Frame.alone f.content file s t) (Pairing.quiet (t.names.Same t.names))
      (fun _ _ => True) ctx ctx := by
  have hlowers : Lowers (Frame.alone f.content file s t)
      (Pairing.ofText f.content file file (fun _ _ => True) (t.names.Same t.names) True)
      (fun _ _ => True) ctx ctx :=
    lowers_ofText hf hf rfl rfl rfl (fun _ _ h => h) (fun _ _ _ => trivial) fun _ _ _ => trivial
  exact {
    known := hlowers.known, kept := fun _ _ _ _ => trivial, entered := fun _ _ _ _ => trivial
    flaw := hlowers.flaw, text := hlowers.text, number := hlowers.number
    notice := by
      intro label span span' _
      show ctx.level.severity ≠ .error
      cases ctx.level <;> nofun }

/-- A file in which parsing finds no error is lowered with as many errors as it has items with a
bare literal, and gives just the instances of the other items. So nothing of it is dropped just if
it has no such item. -/
theorem clean_lowering {file : Nat} {f : SourceFile} (hf : ctx.sources.file file = .ok f)
    (s : Session)
    (hclean : ∀ d ∈ (Parser.parsing Parser.sourceText ctx.sources file).run.emitted s,
      d.severity ≠ .error) :
    ∃ text t modules u,
      (Parser.parsing Parser.sourceText ctx.sources file).run.run s = (.ok text, t) ∧
      (Lowering.sourceText ctx text).run.run t = (.ok modules, u) ∧
      ((Lowering.sourceText ctx text).run.emitted t).countP (fun d => d.severity = .error) =
        text.items.countP (fun i => i.isBare ctx.sources) ∧
      (modules.flatMap (·.instances)).length =
        ((text.items.filter fun i => !i.isBare ctx.sources).flatMap Item.instances).length ∧
      (((∀ d ∈ (Lowering.sourceText ctx text).run.emitted t, d.severity ≠ .error) ∧
          (modules.flatMap (·.instances)).length = text.instances.length) ↔
        ∀ i ∈ text.items, i.isBare ctx.sources = false) := by
  obtain ⟨text, t, hparse, halike, -⟩ := Parser.parsing_alone hf s
  have hwhole : ¬ (Frame.alone f.content file s t).broken := by
    have herrors := Task.errors_run (Parser.parsing Parser.sourceText ctx.sources file).run s
    have hnone : ((Parser.parsing Parser.sourceText ctx.sources file).run.emitted s).countP
        (fun d => d.severity = .error) = 0 := List.countP_eq_zero.mpr (by simpa using hclean)
    rw [hparse, hnone] at herrors
    exact fun hbroken => hbroken herrors
  obtain ⟨modules, u, hlower, hcounted⟩ :=
    counted_text (lowers_quiet hf) hwhole halike (Names.Extends.refl t.names)
  have herrors : ((Lowering.sourceText ctx text).run.emitted t).countP
      (fun d => d.severity = .error) = text.items.countP (fun i => i.isBare ctx.sources) := by
    have hrun := Task.errors_run (Lowering.sourceText ctx text).run t
    rw [hlower, hcounted.errors] at hrun
    omega
  refine ⟨text, t, modules, u, hparse, hlower, herrors, hcounted.instances, ?_, ?_⟩
  · rintro ⟨hquiet, -⟩
    rw [List.countP_eq_zero.mpr (by simpa using hquiet), eq_comm, List.countP_eq_zero] at herrors
    simpa using herrors
  · intro hnone
    have hzero : text.items.countP (fun i => i.isBare ctx.sources) = 0 :=
      List.countP_eq_zero.mpr (by simpa using hnone)
    rw [hzero, List.countP_eq_zero] at herrors
    refine ⟨by simpa using herrors, ?_⟩
    rw [hcounted.instances, List.filter_eq_self.mpr (by simpa using hnone), SourceText.instances]

/-- A session of one text. -/
def sole (content : String) : Context := { sources := Sources.ofList [("a.sv", content)] }

theorem clean_lowering_sized :
    ∃ text t modules u,
      (Parser.parsing Parser.sourceText (sole "module m; foo u(8'hff), v(x); endmodule").sources
        0).run.run {} = (.ok text, t) ∧
      (Lowering.sourceText (sole "module m; foo u(8'hff), v(x); endmodule") text).run.run t =
        (.ok modules, u) ∧
      (modules.flatMap (·.instances)).length =
        ((text.items.filter fun i =>
          !i.isBare (sole "module m; foo u(8'hff), v(x); endmodule").sources).flatMap
            Item.instances).length := by
  have hclean : ∀ d ∈ (Parser.parsing Parser.sourceText
      (sole "module m; foo u(8'hff), v(x); endmodule").sources 0).run.emitted {},
      d.severity ≠ .error := by decide +kernel
  obtain ⟨text, t, modules, u, hparse, hlower, -, hinstances, -⟩ := clean_lowering rfl {} hclean
  exact ⟨text, t, modules, u, hparse, hlower, hinstances⟩

/-- A base without digits is no error to the parser, and its statement is dropped. -/
theorem bare_number_dropped :
    ¬ ∀ text t modules u,
      (Parser.parsing Parser.sourceText (sole "module m; foo u(8'h); endmodule").sources
        0).run.run {} = (.ok text, t) →
      t.log.errors = 0 →
      (Lowering.sourceText (sole "module m; foo u(8'h); endmodule") text).run.run t =
        (.ok modules, u) →
      u.log.errors = 0 ∧ (modules.flatMap (·.instances)).length = text.instances.length := by
  intro hkept
  have hf : (sole "module m; foo u(8'h); endmodule").sources.file 0 =
      .ok ⟨"a.sv", "module m; foo u(8'h); endmodule"⟩ := rfl
  obtain ⟨text, t, hparse, -⟩ := Parser.parsing_alone hf {}
  obtain ⟨modules, u, hfile, -⟩ := file_alone hf {}
  have hlower := (SessionM.run_bind hparse).symm.trans hfile
  have hclean : ((Parser.parsing Parser.sourceText
      (sole "module m; foo u(8'h); endmodule").sources 0).run.run {}).2.log.errors = 0 := by
    decide +kernel
  have herror :
      ((file (sole "module m; foo u(8'h); endmodule") 0).run.run {}).2.log.errors = 1 := by
    decide +kernel
  rw [hparse] at hclean
  rw [hfile] at herror
  have hnone := (hkept text t modules u hparse hclean hlower).1
  exact absurd (hnone.symm.trans herror) (by decide)

end Run

end Netlist
