import Netlist.Proofs.Lowering.Atoms
import Netlist.Proofs.Syntax.Leaves

/-!
What the parser makes can be lowered. A tree that is like itself over a frame asks only for names
and texts that are there, whatever is broken in it; and each atom of a statement is a token of the
kind it should be, if the frame says so.
-/
namespace Netlist

open List (Forall₂)

namespace Syntax

variable {F : Frame}

mutual

/-- Every node of a tree is like some node. -/
theorem alike_subtrees : (e : Expr) → {e' : Expr} → e.Alike F e' →
    ∀ x ∈ e.subtrees, ∃ x', x.Alike F x'
  | .identifier _, _, h => by
    rw [Expr.subtrees, List.forall_mem_singleton]
    exact ⟨_, h⟩
  | .hierarchical _ _, _, h => by
    rw [Expr.subtrees, List.forall_mem_singleton]
    exact ⟨_, h⟩
  | .scoped _ _ _, _, h => by
    rw [Expr.subtrees, List.forall_mem_singleton]
    exact ⟨_, h⟩
  | .literal _, _, h => by
    rw [Expr.subtrees, List.forall_mem_singleton]
    exact ⟨_, h⟩
  | .realLiteral _, _, h => by
    rw [Expr.subtrees, List.forall_mem_singleton]
    exact ⟨_, h⟩
  | .stringLiteral _, _, h => by
    rw [Expr.subtrees, List.forall_mem_singleton]
    exact ⟨_, h⟩
  | .error _, _, h => by
    rw [Expr.subtrees, List.forall_mem_singleton]
    exact ⟨_, h⟩
  | .index a b _, _, .index ha hb hs => by
    simp only [Expr.subtrees, List.forall_mem_cons, List.forall_mem_append]
    exact ⟨⟨_, .index ha hb hs⟩, alike_subtrees a ha, alike_subtrees b hb⟩
  | .rangeSelect a b c _, _, .rangeSelect ha hb hc hs => by
    simp only [Expr.subtrees, List.forall_mem_cons, List.forall_mem_append]
    exact ⟨⟨_, .rangeSelect ha hb hc hs⟩, alike_subtrees a ha, alike_subtrees b hb,
      alike_subtrees c hc⟩
  | .partSelect a b _ c _, _, .partSelect ha hb hc hs => by
    simp only [Expr.subtrees, List.forall_mem_cons, List.forall_mem_append]
    exact ⟨⟨_, .partSelect ha hb hc hs⟩, alike_subtrees a ha, alike_subtrees b hb,
      alike_subtrees c hc⟩
  | .concat es _, _, .concat hes hs => by
    simp only [Expr.subtrees, List.forall_mem_cons]
    exact ⟨⟨_, .concat hes hs⟩, alike_subtreesOf es hes⟩
  | .replicate n es _, _, .replicate hn hes hs => by
    simp only [Expr.subtrees, List.forall_mem_cons, List.forall_mem_append]
    exact ⟨⟨_, .replicate hn hes hs⟩, alike_subtrees n hn, alike_subtreesOf es hes⟩
  | .unary _ a _, _, .unary ha hs => by
    simp only [Expr.subtrees, List.forall_mem_cons]
    exact ⟨⟨_, .unary ha hs⟩, alike_subtrees a ha⟩
  | .binary a _ b _, _, .binary ha hb hs => by
    simp only [Expr.subtrees, List.forall_mem_cons, List.forall_mem_append]
    exact ⟨⟨_, .binary ha hb hs⟩, alike_subtrees a ha, alike_subtrees b hb⟩
  | .ternary a b c _, _, .ternary ha hb hc hs => by
    simp only [Expr.subtrees, List.forall_mem_cons, List.forall_mem_append]
    exact ⟨⟨_, .ternary ha hb hc hs⟩, alike_subtrees a ha, alike_subtrees b hb, alike_subtrees c hc⟩
  | .call f es _, _, .call hf hes hs => by
    simp only [Expr.subtrees, List.forall_mem_cons, List.forall_mem_append]
    exact ⟨⟨_, .call hf hes hs⟩, alike_subtrees f hf, alike_subtreesOf es hes⟩
  | .systemCall _ es _, _, .systemCall hi hes hs => by
    simp only [Expr.subtrees, List.forall_mem_cons]
    exact ⟨⟨_, .systemCall hi hes hs⟩, alike_subtreesOf es hes⟩
  | .paren a _, _, .paren ha hs => by
    simp only [Expr.subtrees, List.forall_mem_cons]
    exact ⟨⟨_, .paren ha hs⟩, alike_subtrees a ha⟩

theorem alike_subtreesOf : (es : List Expr) → {es' : List Expr} → Forall₂ (Expr.Alike F) es es' →
    ∀ x ∈ Expr.subtreesOf es, ∃ x', x.Alike F x'
  | [], _, .nil => List.forall_mem_nil _
  | e :: es, _, .cons he hes => by
    simp only [Expr.subtreesOf, List.forall_mem_append]
    exact ⟨alike_subtrees e he, alike_subtreesOf es hes⟩

end

/-- An atom that is a token of its kind, if the frame says so. -/
def Atom.Fits (F : Frame) : Atom → Prop
  | .name i => ∃ i', i.Alike F i'
  | .system i => ∃ i', i.AlikeAt F .systemIdentifier i'
  | .keyword _ => True
  | .number span => ∃ kind text s', Kind.IsNumber kind ∧ F.leaf kind text span s'
  | .real span => ∃ text s', F.leaf .realLiteral text span s'
  | .string span => ∃ text s', F.leaf .stringLiteral text span s'

section Atoms

theorem fits_names {is is' : List Identifier} (h : Forall₂ (Identifier.Alike F) is is') :
    ∀ a ∈ is.map Atom.name, a.Fits F := by
  induction h with
  | nil => exact List.forall_mem_nil _
  | cons hi _ ih => exact List.forall_mem_cons.mpr ⟨⟨_, hi⟩, ih⟩

theorem fits_node {e e' : Expr} (h : e.Alike F e') : ∀ a ∈ e.ownAtoms, a.Fits F := by
  cases h with
  | identifier hi => exact List.forall_mem_singleton.mpr ⟨_, hi⟩
  | hierarchical hfirst hmore _ => exact fits_names (.cons hfirst hmore)
  | «scoped» houter hinner _ => exact fits_names (.cons houter (.cons hinner .nil))
  | literal hkind hleaf _ => exact List.forall_mem_singleton.mpr ⟨_, _, _, hkind, hleaf⟩
  | realLiteral hleaf _ => exact List.forall_mem_singleton.mpr ⟨_, _, hleaf⟩
  | stringLiteral hleaf _ => exact List.forall_mem_singleton.mpr ⟨_, _, hleaf⟩
  | systemCall hi _ _ => exact List.forall_mem_singleton.mpr ⟨_, hi⟩
  | _ => exact List.forall_mem_nil _

theorem fits_expr {e e' : Expr} (h : e.Alike F e') : ∀ a ∈ e.atoms, a.Fits F := by
  intro a ha
  obtain ⟨x, hx, ha⟩ := List.mem_flatMap.mp ha
  obtain ⟨x', halike⟩ := alike_subtrees e h x hx
  exact fits_node halike a ha

theorem fits_range {r r' : Range} (h : r.Alike F r') : ∀ a ∈ r.atoms, a.Fits F :=
  List.forall_mem_append.mpr ⟨fits_expr h.msb, fits_expr h.lsb⟩

theorem fits_paramValue {v v' : ParamValue} (h : v.Alike F v') : ∀ a ∈ v.atoms, a.Fits F := by
  cases h with
  | expr he => exact fits_expr he
  | dataType ht =>
    exact List.forall_mem_cons.mpr ⟨trivial, forall_flatMap ht.packed fun _ _ h => fits_range h⟩

theorem fits_namedParam {p p' : NamedParam} (h : p.Alike F p') : ∀ a ∈ p.atoms, a.Fits F :=
  List.forall_mem_cons.mpr
    ⟨⟨_, h.name⟩, forall_option h.value fun _ _ h => fits_paramValue h⟩

theorem fits_paramList {l l' : ParamList} (h : l.Alike F l') : ∀ a ∈ l.atoms, a.Fits F := by
  cases h with
  | ordered hvs => exact forall_flatMap hvs fun _ _ h => fits_paramValue h
  | named hps => exact forall_flatMap hps fun _ _ h => fits_namedParam h

theorem fits_dimension {d d' : Dimension} (h : d.Alike F d') : ∀ a ∈ d.atoms, a.Fits F := by
  cases h with
  | range hr => exact fits_range hr
  | size he _ => exact fits_expr he

theorem fits_portTarget {t t' : PortTarget} (h : t.Alike F t') : ∀ a ∈ t.atoms, a.Fits F := by
  cases h with
  | wildcard => exact List.forall_mem_nil _
  | port hname hactual =>
    exact List.forall_mem_cons.mpr ⟨⟨_, hname⟩, forall_option hactual fun _ _ h => fits_expr h⟩

theorem fits_portList {l l' : PortList} (h : l.Alike F l') : ∀ a ∈ l.atoms, a.Fits F := by
  cases h with
  | ordered hps =>
    exact forall_flatMap hps fun _ _ hp => forall_option hp.expr fun _ _ h => fits_expr h
  | named hps => exact forall_flatMap hps fun _ _ hp => fits_portTarget hp.target

/-- Each atom of a statement is a token of its kind. -/
theorem fits_instantiation {s s' : Instantiation} (h : s.Alike F s') :
    ∀ a ∈ s.atoms, a.Fits F := by
  have hparams : ∀ a ∈ s.params.toList.flatMap ParamClause.atoms, a.Fits F :=
    forall_option h.params fun _ _ hp => forall_option hp.list fun _ _ h => fits_paramList h
  refine forall_flatMap h.instances fun i i' hi => ?_
  have hname : ∀ a ∈ i.name.atoms, a.Fits F := List.forall_mem_cons.mpr
    ⟨⟨_, hi.name.name⟩, forall_flatMap hi.name.dimensions fun _ _ h => fits_dimension h⟩
  refine List.forall_mem_append.mpr ⟨hname, List.forall_mem_cons.mpr ⟨⟨_, h.module⟩, ?_⟩⟩
  exact List.forall_mem_append.mpr ⟨hparams, fits_portList hi.connections⟩

end Atoms

end Syntax

namespace Lowering

open Syntax

variable {ctx : Context} {names : Names} {F : Frame}

/-- The names and tokens of a frame are there. -/
structure Furnished (ctx : Context) (names : Names) (F : Frame) : Prop where
  name : ∀ {text : String} {i i' : Nat}, F.name text i i' → ∃ t, names.resolve? i = some t
  leaf : ∀ {kind : Kind} {text : String} {s s' : Span}, F.leaf kind text s s' →
    ∃ t, ctx.sources.snippet s = .ok t

/-- All that is asked for is there. -/
def AllServed (ctx : Context) (names : Names) (vs : List Visit) : Prop :=
  ∀ v ∈ vs, Served ctx names v

variable (hF : Furnished ctx names F)

include hF

theorem served_identifier {i i' : Identifier} (h : i.Alike F i') :
    AllServed ctx names i.visits := by
  obtain ⟨text, hname, -⟩ := h.name
  exact List.forall_mem_singleton.mpr (hF.name hname)

theorem served_node {e e' : Expr} (h : e.Alike F e') : AllServed ctx names e.own := by
  cases h with
  | identifier hi => exact served_identifier hF hi
  | hierarchical hfirst hmore _ =>
    exact List.forall_mem_append.mpr
      ⟨served_identifier hF hfirst, forall_flatMap hmore fun _ _ h => served_identifier hF h⟩
  | «scoped» houter hinner _ =>
    exact List.forall_mem_append.mpr ⟨served_identifier hF houter, served_identifier hF hinner⟩
  | literal _ hleaf _ => exact List.forall_mem_singleton.mpr (hF.leaf hleaf)
  | realLiteral hleaf _ => exact List.forall_mem_singleton.mpr (hF.leaf hleaf)
  | stringLiteral hleaf _ => exact List.forall_mem_singleton.mpr (hF.leaf hleaf)
  | error _ _ => exact List.forall_mem_singleton.mpr trivial
  | _ => exact List.forall_mem_nil _

theorem served_expr {e e' : Expr} (h : e.Alike F e') : AllServed ctx names e.visits := by
  intro v hv
  rw [e.visits_eq] at hv
  obtain ⟨x, hx, hv⟩ := List.mem_flatMap.mp hv
  obtain ⟨x', halike⟩ := alike_subtrees e h x hx
  exact served_node hF halike v hv

theorem served_range {r r' : Range} (h : r.Alike F r') : AllServed ctx names r.visits :=
  List.forall_mem_append.mpr ⟨served_expr hF h.msb, served_expr hF h.lsb⟩

theorem served_paramValue {v v' : ParamValue} (h : v.Alike F v') :
    AllServed ctx names v.visits := by
  cases h with
  | expr he => exact served_expr hF he
  | @dataType t t' ht =>
    refine List.forall_mem_append.mpr
      ⟨?_, forall_flatMap ht.packed fun _ _ h => served_range hF h⟩
    cases t.signing <;> simp [Served]

theorem served_namedParam {p p' : NamedParam} (h : p.Alike F p') :
    AllServed ctx names p.visits :=
  List.forall_mem_append.mpr ⟨served_identifier hF h.name,
    forall_option h.value fun _ _ h => served_paramValue hF h⟩

theorem served_paramList {l l' : ParamList} (h : l.Alike F l') : AllServed ctx names l.visits := by
  cases h with
  | ordered hvs => exact forall_flatMap hvs fun _ _ h => served_paramValue hF h
  | named hps => exact forall_flatMap hps fun _ _ h => served_namedParam hF h

theorem served_dimension {d d' : Dimension} (h : d.Alike F d') :
    AllServed ctx names d.visits := by
  cases h with
  | range hr => exact served_range hF hr
  | size he _ => exact served_expr hF he

omit hF in
theorem served_attributes (form : String) (as : List Syntax.Attribute) :
    AllServed ctx names (as.flatMap (Attribute.visits form)) := by
  intro v hv
  obtain ⟨a, -, hv⟩ := List.mem_flatMap.mp hv
  obtain rfl := List.mem_singleton.mp hv
  trivial

theorem served_portTarget {t t' : PortTarget} (h : t.Alike F t') :
    AllServed ctx names t.visits := by
  cases h with
  | wildcard => exact List.forall_mem_nil _
  | port hname hactual =>
    exact List.forall_mem_append.mpr
      ⟨served_identifier hF hname, forall_option hactual fun _ _ h => served_expr hF h⟩

theorem served_portList {l l' : PortList} (h : l.Alike F l') : AllServed ctx names l.visits := by
  cases h with
  | ordered hps =>
    exact forall_flatMap hps fun p _ hp => List.forall_mem_append.mpr
      ⟨served_attributes "ordered" p.attributes,
        forall_option hp.expr fun _ _ h => served_expr hF h⟩
  | named hps =>
    exact forall_flatMap hps fun p _ hp => List.forall_mem_append.mpr
      ⟨served_attributes "named" p.attributes, served_portTarget hF hp.target⟩

theorem served_instantiation {s s' : Instantiation} (h : s.Alike F s') :
    AllServed ctx names s.visits := by
  have hsome : ¬ s.instances.isEmpty = true := by
    have hne := h.nonempty
    simpa using hne
  rw [AllServed, Instantiation.visits, if_neg hsome]
  refine List.forall_mem_append.mpr ⟨forall_option h.params fun _ _ hp =>
    forall_option hp.list fun _ _ h => served_paramList hF h, ?_⟩
  refine forall_flatMap h.instances fun i i' hi => List.forall_mem_append.mpr
    ⟨served_portList hF hi.connections, List.forall_mem_append.mpr
      ⟨served_identifier hF hi.name.name, List.forall_mem_append.mpr ⟨?_, ?_⟩⟩⟩
  · exact forall_flatMap hi.name.dimensions fun _ _ h => served_dimension hF h
  · exact served_identifier hF h.module

/-- Lowering a unit asks only for what is there. -/
theorem served_unit {u u' : DesignUnit} (h : u.Alike F u') : AllServed ctx names u.visits := by
  refine List.forall_mem_append.mpr ⟨forall_flatMap h.items fun i i' hi => ?_,
    served_identifier hF h.name⟩
  cases hi with
  | instantiation hstmt => exact served_instantiation hF hstmt
  | skipped hleaf _ _ => exact List.forall_mem_singleton.mpr (hF.leaf hleaf)
  | error _ _ => exact List.forall_mem_nil _

end Lowering

end Netlist
