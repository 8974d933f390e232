import Netlist.Syntax.Tree
import Mathlib.Data.List.Forall2
import Mathlib.Data.Option.Basic

/-!
Syntax trees that are alike: of the same shape, with names, spans and literals that correspond. What
corresponds is given by a frame. A frame that relates each thing to itself turns this into a
statement about one tree: all its spans are good, all its names are known, and it has a node for
broken source only if something is broken.
-/
namespace Netlist

/-- What corresponds between two parses. -/
structure Frame where
  /-- The file of the first parse. -/
  file : Nat
  /-- The file of the second parse. -/
  file' : Nat
  /-- How many more tokens the second parse had consumed where the two set out. -/
  ahead : Nat := 0
  /-- How many errors both had reported there. -/
  errors : Nat := 0
  /-- Indices of this text. -/
  name : String → Nat → Nat → Prop
  span : Span → Span → Prop
  /-- Spans that cover one token of this kind and text. -/
  leaf : Kind → String → Span → Span → Prop
  /-- Whether the source is broken somewhere. -/
  broken : Prop
  /-- Where something may stand that is no expression. -/
  flaw : Span → Span → Prop
  /-- Whether units may be opened. -/
  opens : Prop
  span_file : ∀ {s s' : Span}, span s s' → s.file = file ∧ s'.file = file'
  span_cover : ∀ {a a' b b' : Span}, span a a' → span b b' → span (a.cover b) (a'.cover b')
  span_atStart : ∀ {s s' : Span}, span s s' → span s.atStart s'.atStart
  flaw_of_broken : ∀ {s s' : Span}, broken → flaw s s'

/-- The kinds of number tokens. -/
def Kind.IsNumber (k : Kind) : Prop := k = .intLiteral ∨ k = .sizedLiteral ∨ k = .fillLiteral

/-- The kinds of tokens that a name can stand for. -/
def Kind.IsName (k : Kind) : Prop := k.isIdentifier = true ∨ k = .systemIdentifier

namespace Syntax

open List (Forall₂)

/-- The token that a name stands for; there is one unless the source is broken. -/
structure Identifier.Alike (F : Frame) (i i' : Identifier) : Prop where
  name : ∃ text, F.name text i.name i'.name ∧
    (F.broken ∨ ∃ kind : Kind, kind.IsName ∧ F.leaf kind text i.span i'.span)
  span : F.span i.span i'.span

/-- Names that stand for one token of this kind, broken source or not. -/
structure Identifier.AlikeAt (F : Frame) (kind : Kind) (i i' : Identifier) : Prop where
  name : ∃ text, F.name text i.name i'.name ∧ F.leaf kind text i.span i'.span
  span : F.span i.span i'.span

theorem Identifier.AlikeAt.alike {F : Frame} {kind : Kind} {i i' : Identifier}
    (h : i.AlikeAt F kind i') (hkind : kind.IsName) : i.Alike F i' := by
  obtain ⟨text, hname, hleaf⟩ := h.name
  exact ⟨⟨text, hname, .inr ⟨kind, hkind, hleaf⟩⟩, h.span⟩

inductive Expr.Alike (F : Frame) : Expr → Expr → Prop
  | identifier {i i' : Identifier} :
      i.Alike F i' → Alike F (.identifier i) (.identifier i')
  | hierarchical {first first' : Identifier} {more more' : List Identifier} {s s' : Span} :
      first.Alike F first' → Forall₂ (Identifier.Alike F) more more' → F.span s s' →
      Alike F (.hierarchical (first :: more) s) (.hierarchical (first' :: more') s')
  | scoped {a a' b b' : Identifier} {s s' : Span} :
      a.Alike F a' → b.Alike F b' → F.span s s' → Alike F (.scoped a b s) (.scoped a' b' s')
  | literal {kind : Kind} {text : String} {s s' : Span} :
      kind.IsNumber → F.leaf kind text s s' → F.span s s' → Alike F (.literal s) (.literal s')
  | realLiteral {text : String} {s s' : Span} :
      F.leaf .realLiteral text s s' → F.span s s' → Alike F (.realLiteral s) (.realLiteral s')
  | stringLiteral {text : String} {s s' : Span} :
      F.leaf .stringLiteral text s s' → F.span s s' →
      Alike F (.stringLiteral s) (.stringLiteral s')
  | index {a a' b b' : Expr} {s s' : Span} :
      Alike F a a' → Alike F b b' → F.span s s' → Alike F (.index a b s) (.index a' b' s')
  | rangeSelect {a a' b b' c c' : Expr} {s s' : Span} :
      Alike F a a' → Alike F b b' → Alike F c c' → F.span s s' →
      Alike F (.rangeSelect a b c s) (.rangeSelect a' b' c' s')
  | partSelect {a a' b b' c c' : Expr} {ascending : Bool} {s s' : Span} :
      Alike F a a' → Alike F b b' → Alike F c c' → F.span s s' →
      Alike F (.partSelect a b ascending c s) (.partSelect a' b' ascending c' s')
  | concat {es es' : List Expr} {s s' : Span} :
      Forall₂ (Alike F) es es' → F.span s s' → Alike F (.concat es s) (.concat es' s')
  | replicate {n n' : Expr} {es es' : List Expr} {s s' : Span} :
      Alike F n n' → Forall₂ (Alike F) es es' → F.span s s' →
      Alike F (.replicate n es s) (.replicate n' es' s')
  | unary {op : UnaryOp} {a a' : Expr} {s s' : Span} :
      Alike F a a' → F.span s s' → Alike F (.unary op a s) (.unary op a' s')
  | binary {op : BinaryOp} {a a' b b' : Expr} {s s' : Span} :
      Alike F a a' → Alike F b b' → F.span s s' → Alike F (.binary a op b s) (.binary a' op b' s')
  | ternary {a a' b b' c c' : Expr} {s s' : Span} :
      Alike F a a' → Alike F b b' → Alike F c c' → F.span s s' →
      Alike F (.ternary a b c s) (.ternary a' b' c' s')
  | call {f f' : Expr} {es es' : List Expr} {s s' : Span} :
      Alike F f f' → Forall₂ (Alike F) es es' → F.span s s' →
      Alike F (.call f es s) (.call f' es' s')
  | systemCall {i i' : Identifier} {es es' : List Expr} {s s' : Span} :
      i.AlikeAt F .systemIdentifier i' → Forall₂ (Alike F) es es' → F.span s s' →
      Alike F (.systemCall i es s) (.systemCall i' es' s')
  | paren {a a' : Expr} {s s' : Span} :
      Alike F a a' → F.span s s' → Alike F (.paren a s) (.paren a' s')
  | error {s s' : Span} : F.flaw s s' → F.span s s' → Alike F (.error s) (.error s')

theorem Expr.Alike.span {F : Frame} {e e' : Expr} (h : e.Alike F e') : F.span e.span e'.span := by
  cases h with
  | identifier hi => exact hi.span
  | _ => assumption

structure Range.Alike (F : Frame) (r r' : Range) : Prop where
  msb : r.msb.Alike F r'.msb
  lsb : r.lsb.Alike F r'.lsb
  span : F.span r.span r'.span

structure DataType.Alike (F : Frame) (t t' : DataType) : Prop where
  kind : t.kind = t'.kind
  signing : Option.Rel (fun p p' => p.1 = p'.1 ∧ F.span p.2 p'.2) t.signing t'.signing
  packed : Forall₂ (Range.Alike F) t.packed t'.packed
  span : F.span t.span t'.span

inductive ParamValue.Alike (F : Frame) : ParamValue → ParamValue → Prop
  | expr {e e' : Expr} : e.Alike F e' → Alike F (.expr e) (.expr e')
  | dataType {t t' : DataType} : t.Alike F t' → Alike F (.dataType t) (.dataType t')

structure NamedParam.Alike (F : Frame) (p p' : NamedParam) : Prop where
  name : p.name.Alike F p'.name
  value : Option.Rel (ParamValue.Alike F) p.value p'.value
  span : F.span p.span p'.span

inductive ParamList.Alike (F : Frame) : ParamList → ParamList → Prop
  | ordered {vs vs' : List ParamValue} :
      Forall₂ (ParamValue.Alike F) vs vs' → Alike F (.ordered vs) (.ordered vs')
  | named {ps ps' : List NamedParam} :
      Forall₂ (NamedParam.Alike F) ps ps' → Alike F (.named ps) (.named ps')

structure ParamClause.Alike (F : Frame) (p p' : ParamClause) : Prop where
  list : Option.Rel (ParamList.Alike F) p.list p'.list
  span : F.span p.span p'.span

inductive Dimension.Alike (F : Frame) : Dimension → Dimension → Prop
  | range {r r' : Range} : r.Alike F r' → Alike F (.range r) (.range r')
  | size {e e' : Expr} {s s' : Span} :
      e.Alike F e' → F.span s s' → Alike F (.size e s) (.size e' s')

structure InstanceName.Alike (F : Frame) (n n' : InstanceName) : Prop where
  name : n.name.Alike F n'.name
  dimensions : Forall₂ (Dimension.Alike F) n.dimensions n'.dimensions
  span : F.span n.span n'.span

structure AttributeSpec.Alike (F : Frame) (a a' : AttributeSpec) : Prop where
  name : a.name.Alike F a'.name
  value : Option.Rel (Expr.Alike F) a.value a'.value
  span : F.span a.span a'.span

structure Attribute.Alike (F : Frame) (a a' : Attribute) : Prop where
  specs : Forall₂ (AttributeSpec.Alike F) a.specs a'.specs
  span : F.span a.span a'.span

structure OrderedPort.Alike (F : Frame) (p p' : OrderedPort) : Prop where
  attributes : Forall₂ (Attribute.Alike F) p.attributes p'.attributes
  expr : Option.Rel (Expr.Alike F) p.expr p'.expr
  span : F.span p.span p'.span

inductive PortTarget.Alike (F : Frame) : PortTarget → PortTarget → Prop
  | wildcard : Alike F .wildcard .wildcard
  | port {i i' : Identifier} {e e' : Option Expr} :
      i.Alike F i' → Option.Rel (Expr.Alike F) e e' → Alike F (.port i e) (.port i' e')

structure NamedPort.Alike (F : Frame) (p p' : NamedPort) : Prop where
  attributes : Forall₂ (Attribute.Alike F) p.attributes p'.attributes
  target : p.target.Alike F p'.target
  span : F.span p.span p'.span

inductive PortList.Alike (F : Frame) : PortList → PortList → Prop
  | ordered {ps ps' : List OrderedPort} :
      Forall₂ (OrderedPort.Alike F) ps ps' → Alike F (.ordered ps) (.ordered ps')
  | named {ps ps' : List NamedPort} :
      Forall₂ (NamedPort.Alike F) ps ps' → Alike F (.named ps) (.named ps')

structure Instance.Alike (F : Frame) (i i' : Instance) : Prop where
  name : i.name.Alike F i'.name
  connections : i.connections.Alike F i'.connections
  span : F.span i.span i'.span

structure Instantiation.Alike (F : Frame) (s s' : Instantiation) : Prop where
  module : s.module.Alike F s'.module
  params : Option.Rel (ParamClause.Alike F) s.params s'.params
  instances : Forall₂ (Instance.Alike F) s.instances s'.instances
  nonempty : s.instances ≠ []
  span : F.span s.span s'.span

inductive Item.Alike (F : Frame) : Item → Item → Prop
  | instantiation {s s' : Instantiation} :
      s.Alike F s' → Alike F (.instantiation s) (.instantiation s')
  | skipped {kind : Kind} {text : String} {l l' s s' : Span} :
      F.leaf kind text l l' → F.span l l' → F.span s s' → Alike F (.skipped l s) (.skipped l' s')
  | error {s s' : Span} : F.broken → F.span s s' → Alike F (.error s) (.error s')

structure DesignUnit.Alike (F : Frame) (u u' : DesignUnit) : Prop where
  kind : u.kind = u'.kind
  name : u.name.Alike F u'.name
  items : Forall₂ (Item.Alike F) u.items u'.items
  endLabel : Option.Rel (Identifier.Alike F) u.endLabel u'.endLabel
  span : F.span u.span u'.span

structure SourceText.Alike (F : Frame) (t t' : SourceText) : Prop where
  units : Forall₂ (DesignUnit.Alike F) t.units t'.units
  span : F.span t.span t'.span

end Syntax

end Netlist
