import Netlist.Syntax.Json
import Netlist.Proofs.Json.Reading

/-!
Syntax trees are read back from their JSON, whatever they hold, as long as names and places are
numbers of 32 bits. Expressions are nested, so theirs is an induction on the tree; everything else
is made of parts that have been dealt with before.
-/
namespace Netlist.Syntax

open Json (Reads)

/-- The numbers of an identifier fit their words. -/
structure Identifier.Storable (i : Identifier) : Prop where
  name : i.name < UInt32.size
  span : i.span.Storable

theorem Identifier.reads : Reads Identifier.toJson Identifier.ofJson? Identifier.Storable := by
  intro i h
  show (do
    return ⟨← (Json.ofNat i.name).word?, ← Span.ofJson? i.span.toJson⟩ :
      Option Identifier) = _
  rw [Json.word?_ofNat h.name, Span.reads _ h.span]
  rfl

namespace Expr

mutual

/-- The numbers in an expression fit their words. -/
def Storable : Expr → Prop
  | .identifier name => name.Storable
  | .hierarchical parts span => (∀ part ∈ parts, part.Storable) ∧ span.Storable
  | .scoped scope name span => scope.Storable ∧ name.Storable ∧ span.Storable
  | .literal span => span.Storable
  | .realLiteral span => span.Storable
  | .stringLiteral span => span.Storable
  | .index base place span => base.Storable ∧ place.Storable ∧ span.Storable
  | .rangeSelect base msb lsb span => base.Storable ∧ msb.Storable ∧ lsb.Storable ∧ span.Storable
  | .partSelect base place _ width span =>
    base.Storable ∧ place.Storable ∧ width.Storable ∧ span.Storable
  | .concat elements span => AllStorable elements ∧ span.Storable
  | .replicate count elements span => count.Storable ∧ AllStorable elements ∧ span.Storable
  | .unary _ operand span => operand.Storable ∧ span.Storable
  | .binary left _ right span => left.Storable ∧ right.Storable ∧ span.Storable
  | .ternary condition thenExpr elseExpr span =>
    condition.Storable ∧ thenExpr.Storable ∧ elseExpr.Storable ∧ span.Storable
  | .call callee args span => callee.Storable ∧ AllStorable args ∧ span.Storable
  | .systemCall name args span => name.Storable ∧ AllStorable args ∧ span.Storable
  | .paren inner span => inner.Storable ∧ span.Storable
  | .error span => span.Storable

def AllStorable : List Expr → Prop
  | [] => True
  | e :: es => e.Storable ∧ AllStorable es

end

theorem oneOf?_unary (op : UnaryOp) :
    Json.oneOf? UnaryOp.all UnaryOp.name (.string op.name) = some op := by
  cases op <;> rfl

theorem oneOf?_binary (op : BinaryOp) :
    Json.oneOf? BinaryOp.all BinaryOp.name (.string op.name) = some op := by
  cases op <;> rfl

mutual

theorem readsWithin : (e : Expr) → e.Storable → ∀ bound, e.toJson.depth ≤ bound →
    ofJsonWithin? bound e.toJson = some e
  | .identifier name, h => Json.reads_of_succ fun bound _ => by
    show (do return .identifier (← Identifier.ofJson? name.toJson) : Option Expr) = _
    rw [Identifier.reads _ h]
    rfl
  | .hierarchical parts span, h => Json.reads_of_succ fun bound _ => by
    obtain ⟨hparts, hspan⟩ := h
    show (do
      return .hierarchical
        (← Json.list? Identifier.ofJson? (.ofList Identifier.toJson parts))
        (← Span.ofJson? span.toJson) : Option Expr) = _
    rw [Json.list?_ofList fun part hpart => Identifier.reads _ (hparts part hpart),
      Span.reads _ hspan]
    rfl
  | .scoped scope name span, h => Json.reads_of_succ fun bound _ => by
    obtain ⟨hscope, hname, hspan⟩ := h
    show (do
      return .scoped (← Identifier.ofJson? scope.toJson)
        (← Identifier.ofJson? name.toJson) (← Span.ofJson? span.toJson) : Option Expr) = _
    rw [Identifier.reads _ hscope, Identifier.reads _ hname, Span.reads _ hspan]
    rfl
  | .literal span, h => Json.reads_of_succ fun bound _ => by
    show (do return .literal (← Span.ofJson? span.toJson) : Option Expr) = _
    rw [Span.reads _ h]
    rfl
  | .realLiteral span, h => Json.reads_of_succ fun bound _ => by
    show (do return .realLiteral (← Span.ofJson? span.toJson) : Option Expr) = _
    rw [Span.reads _ h]
    rfl
  | .stringLiteral span, h => Json.reads_of_succ fun bound _ => by
    show (do return .stringLiteral (← Span.ofJson? span.toJson) : Option Expr) = _
    rw [Span.reads _ h]
    rfl
  | .index base place span, h => Json.reads_of_succ fun bound hdepth => by
    obtain ⟨hbase, hplace, hspan⟩ := h
    show (do
      return .index (← ofJsonWithin? bound base.toJson)
        (← ofJsonWithin? bound place.toJson) (← Span.ofJson? span.toJson) : Option Expr) = _
    rw [readsWithin base hbase bound (Json.depth_le_field hdepth (by simp)),
      readsWithin place hplace bound (Json.depth_le_field hdepth (by simp)), Span.reads _ hspan]
    rfl
  | .rangeSelect base msb lsb span, h => Json.reads_of_succ fun bound hdepth => by
    obtain ⟨hbase, hmsb, hlsb, hspan⟩ := h
    show (do
      return .rangeSelect (← ofJsonWithin? bound base.toJson)
        (← ofJsonWithin? bound msb.toJson) (← ofJsonWithin? bound lsb.toJson)
        (← Span.ofJson? span.toJson) : Option Expr) = _
    rw [readsWithin base hbase bound (Json.depth_le_field hdepth (by simp)),
      readsWithin msb hmsb bound (Json.depth_le_field hdepth (by simp)),
      readsWithin lsb hlsb bound (Json.depth_le_field hdepth (by simp)), Span.reads _ hspan]
    rfl
  | .partSelect base place ascending width span, h => Json.reads_of_succ fun bound hdepth => by
    obtain ⟨hbase, hplace, hwidth, hspan⟩ := h
    show (do
      return .partSelect (← ofJsonWithin? bound base.toJson)
        (← ofJsonWithin? bound place.toJson) (← (Json.bool ascending).bool?)
        (← ofJsonWithin? bound width.toJson) (← Span.ofJson? span.toJson) : Option Expr) = _
    rw [readsWithin base hbase bound (Json.depth_le_field hdepth (by simp)),
      readsWithin place hplace bound (Json.depth_le_field hdepth (by simp)),
      readsWithin width hwidth bound (Json.depth_le_field hdepth (by simp)), Span.reads _ hspan]
    rfl
  | .concat elements span, h => Json.reads_of_succ fun bound hdepth => by
    obtain ⟨helements, hspan⟩ := h
    show (do
      return .concat (← (listToJson elements).mapM (ofJsonWithin? bound))
        (← Span.ofJson? span.toJson) : Option Expr) = _
    rw [allReadWithin elements helements bound
      (Json.depth_le_item (Json.depth_le_field hdepth (by simp))), Span.reads _ hspan]
    rfl
  | .replicate count elements span, h => Json.reads_of_succ fun bound hdepth => by
    obtain ⟨hcount, helements, hspan⟩ := h
    show (do
      return .replicate (← ofJsonWithin? bound count.toJson)
        (← (listToJson elements).mapM (ofJsonWithin? bound))
        (← Span.ofJson? span.toJson) : Option Expr) = _
    rw [readsWithin count hcount bound (Json.depth_le_field hdepth (by simp)),
      allReadWithin elements helements bound
        (Json.depth_le_item (Json.depth_le_field hdepth (by simp))), Span.reads _ hspan]
    rfl
  | .unary op operand span, h => Json.reads_of_succ fun bound hdepth => by
    obtain ⟨hoperand, hspan⟩ := h
    show (do
      return .unary (← Json.oneOf? UnaryOp.all UnaryOp.name (.string op.name))
        (← ofJsonWithin? bound operand.toJson) (← Span.ofJson? span.toJson) : Option Expr) = _
    rw [oneOf?_unary, readsWithin operand hoperand bound (Json.depth_le_field hdepth (by simp)),
      Span.reads _ hspan]
    rfl
  | .binary left op right span, h => Json.reads_of_succ fun bound hdepth => by
    obtain ⟨hleft, hright, hspan⟩ := h
    show (do
      return .binary (← ofJsonWithin? bound left.toJson)
        (← Json.oneOf? BinaryOp.all BinaryOp.name (.string op.name))
        (← ofJsonWithin? bound right.toJson) (← Span.ofJson? span.toJson) : Option Expr) = _
    rw [readsWithin left hleft bound (Json.depth_le_field hdepth (by simp)), oneOf?_binary,
      readsWithin right hright bound (Json.depth_le_field hdepth (by simp)), Span.reads _ hspan]
    rfl
  | .ternary condition thenExpr elseExpr span, h => Json.reads_of_succ fun bound hdepth => by
    obtain ⟨hcondition, hthen, helse, hspan⟩ := h
    show (do
      return .ternary (← ofJsonWithin? bound condition.toJson)
        (← ofJsonWithin? bound thenExpr.toJson) (← ofJsonWithin? bound elseExpr.toJson)
        (← Span.ofJson? span.toJson) : Option Expr) = _
    rw [readsWithin condition hcondition bound (Json.depth_le_field hdepth (by simp)),
      readsWithin thenExpr hthen bound (Json.depth_le_field hdepth (by simp)),
      readsWithin elseExpr helse bound (Json.depth_le_field hdepth (by simp)), Span.reads _ hspan]
    rfl
  | .call callee args span, h => Json.reads_of_succ fun bound hdepth => by
    obtain ⟨hcallee, hargs, hspan⟩ := h
    show (do
      return .call (← ofJsonWithin? bound callee.toJson)
        (← (listToJson args).mapM (ofJsonWithin? bound))
        (← Span.ofJson? span.toJson) : Option Expr) = _
    rw [readsWithin callee hcallee bound (Json.depth_le_field hdepth (by simp)),
      allReadWithin args hargs bound
        (Json.depth_le_item (Json.depth_le_field hdepth (by simp))), Span.reads _ hspan]
    rfl
  | .systemCall name args span, h => Json.reads_of_succ fun bound hdepth => by
    obtain ⟨hname, hargs, hspan⟩ := h
    show (do
      return .systemCall (← Identifier.ofJson? name.toJson)
        (← (listToJson args).mapM (ofJsonWithin? bound))
        (← Span.ofJson? span.toJson) : Option Expr) = _
    rw [Identifier.reads _ hname, allReadWithin args hargs bound
        (Json.depth_le_item (Json.depth_le_field hdepth (by simp))), Span.reads _ hspan]
    rfl
  | .paren inner span, h => Json.reads_of_succ fun bound hdepth => by
    obtain ⟨hinner, hspan⟩ := h
    show (do
      return .paren (← ofJsonWithin? bound inner.toJson)
        (← Span.ofJson? span.toJson) : Option Expr) = _
    rw [readsWithin inner hinner bound (Json.depth_le_field hdepth (by simp)), Span.reads _ hspan]
    rfl
  | .error span, h => Json.reads_of_succ fun bound _ => by
    show (do return .error (← Span.ofJson? span.toJson) : Option Expr) = _
    rw [Span.reads _ h]
    rfl

theorem allReadWithin : (es : List Expr) → AllStorable es → ∀ bound,
    (∀ j ∈ listToJson es, j.depth ≤ bound) →
    (listToJson es).mapM (ofJsonWithin? bound) = some es
  | [], _, _, _ => rfl
  | e :: es, h, bound, hdepth => by
    obtain ⟨he, hes⟩ := h
    obtain ⟨hfirst, hlater⟩ := List.forall_mem_cons.mp hdepth
    rw [listToJson, List.mapM_cons, readsWithin e he bound hfirst,
      allReadWithin es hes bound hlater]
    rfl

end

theorem reads : Reads Expr.toJson Expr.ofJson? Expr.Storable :=
  fun e h => readsWithin e h _ (Nat.le_refl _)

end Expr

section Records

-- What is made of other parts can be stored if they can.

structure Range.Storable (r : Range) : Prop where
  msb : r.msb.Storable
  lsb : r.lsb.Storable
  span : r.span.Storable

theorem Range.reads : Reads Range.toJson Range.ofJson? Range.Storable := by
  intro r h
  show (do
    return ⟨← Expr.ofJson? r.msb.toJson, ← Expr.ofJson? r.lsb.toJson,
      ← Span.ofJson? r.span.toJson⟩ : Option Range) = _
  rw [Expr.reads _ h.msb, Expr.reads _ h.lsb, Span.reads _ h.span]
  rfl

theorem oneOf?_signing (s : Signing) :
    Json.oneOf? Signing.all (wordName ·.text) (.string (wordName s.text)) = some s := by
  cases s <;> decide +kernel

theorem oneOf?_dataType (kind : BuiltinType) :
    Json.oneOf? BuiltinType.all (wordName ·.text) (.string (wordName kind.text)) = some kind := by
  cases kind <;> decide +kernel

theorem oneOf?_unit (kind : UnitKind) :
    Json.oneOf? UnitKind.all (wordName ·.text) (.string (wordName kind.text)) = some kind := by
  cases kind <;> decide +kernel

theorem signing_reads : Reads signingToJson signingOfJson? fun s => s.2.Storable := by
  intro ⟨signing, span⟩ h
  show (do
    return (← Json.oneOf? Signing.all (wordName ·.text) (.string (wordName signing.text)),
      ← Span.ofJson? span.toJson) : Option (Signing × Span)) = _
  rw [oneOf?_signing, Span.reads _ h]
  rfl

structure DataType.Storable (t : DataType) : Prop where
  signing : ∀ s ∈ t.signing, s.2.Storable
  packed : ∀ r ∈ t.packed, r.Storable
  span : t.span.Storable

theorem DataType.reads : Reads DataType.toJson DataType.ofJson? DataType.Storable := by
  intro t h
  show (do
    return ⟨← Json.oneOf? BuiltinType.all (wordName ·.text) (.string (wordName t.kind.text)),
      ← Json.option? signingOfJson? (.ofOption signingToJson t.signing),
      ← Json.list? Range.ofJson? (.ofList Range.toJson t.packed),
      ← Span.ofJson? t.span.toJson⟩ : Option DataType) = _
  rw [oneOf?_dataType, Json.option?_ofOption rfl fun s hs => signing_reads _ (h.signing s hs),
    Json.list?_ofList fun r hr => Range.reads _ (h.packed r hr), Span.reads _ h.span]
  rfl

def ParamValue.Storable : ParamValue → Prop
  | .expr value => value.Storable
  | .dataType type => type.Storable

theorem ParamValue.reads : Reads ParamValue.toJson ParamValue.ofJson? ParamValue.Storable := by
  intro v h
  cases v with
  | expr value =>
    show (do return .expr (← Expr.ofJson? value.toJson) : Option ParamValue) = _
    rw [Expr.reads _ h]
    rfl
  | dataType type =>
    show (do return .dataType (← DataType.ofJson? type.toJson) : Option ParamValue) = _
    rw [DataType.reads _ h]
    rfl

structure NamedParam.Storable (p : NamedParam) : Prop where
  name : p.name.Storable
  value : ∀ v ∈ p.value, v.Storable
  span : p.span.Storable

theorem NamedParam.reads : Reads NamedParam.toJson NamedParam.ofJson? NamedParam.Storable := by
  intro p h
  show (do
    return ⟨← Identifier.ofJson? p.name.toJson,
      ← Json.option? ParamValue.ofJson? (.ofOption ParamValue.toJson p.value),
      ← Span.ofJson? p.span.toJson⟩ : Option NamedParam) = _
  rw [Identifier.reads _ h.name,
    Json.option?_ofOption rfl fun v hv => ParamValue.reads _ (h.value v hv), Span.reads _ h.span]
  rfl

def ParamList.Storable : ParamList → Prop
  | .ordered values => ∀ v ∈ values, v.Storable
  | .named items => ∀ p ∈ items, p.Storable

theorem ParamList.reads : Reads ParamList.toJson ParamList.ofJson? ParamList.Storable := by
  intro l h
  cases l with
  | ordered values =>
    show (do
      return .ordered (← Json.list? ParamValue.ofJson? (.ofList ParamValue.toJson values)) :
        Option ParamList) = _
    rw [Json.list?_ofList fun v hv => ParamValue.reads _ (h v hv)]
    rfl
  | named items =>
    show (do
      return .named (← Json.list? NamedParam.ofJson? (.ofList NamedParam.toJson items)) :
        Option ParamList) = _
    rw [Json.list?_ofList fun p hp => NamedParam.reads _ (h p hp)]
    rfl

structure ParamClause.Storable (c : ParamClause) : Prop where
  list : ∀ l ∈ c.list, l.Storable
  span : c.span.Storable

theorem ParamClause.reads : Reads ParamClause.toJson ParamClause.ofJson? ParamClause.Storable := by
  intro c h
  show (do
    return ⟨← Json.option? ParamList.ofJson? (.ofOption ParamList.toJson c.list),
      ← Span.ofJson? c.span.toJson⟩ : Option ParamClause) = _
  rw [Json.option?_ofOption rfl fun l hl => ParamList.reads _ (h.list l hl), Span.reads _ h.span]
  rfl

def Dimension.Storable : Dimension → Prop
  | .range bounds => bounds.Storable
  | .size count span => count.Storable ∧ span.Storable

theorem Dimension.reads : Reads Dimension.toJson Dimension.ofJson? Dimension.Storable := by
  intro d h
  cases d with
  | range bounds =>
    show (do return .range (← Range.ofJson? bounds.toJson) : Option Dimension) = _
    rw [Range.reads _ h]
    rfl
  | size count span =>
    show (do
      return .size (← Expr.ofJson? count.toJson) (← Span.ofJson? span.toJson) :
        Option Dimension) = _
    rw [Expr.reads _ h.1, Span.reads _ h.2]
    rfl

structure InstanceName.Storable (n : InstanceName) : Prop where
  name : n.name.Storable
  dimensions : ∀ d ∈ n.dimensions, d.Storable
  span : n.span.Storable

theorem InstanceName.reads :
    Reads InstanceName.toJson InstanceName.ofJson? InstanceName.Storable := by
  intro n h
  show (do
    return ⟨← Identifier.ofJson? n.name.toJson,
      ← Json.list? Dimension.ofJson? (.ofList Dimension.toJson n.dimensions),
      ← Span.ofJson? n.span.toJson⟩ : Option InstanceName) = _
  rw [Identifier.reads _ h.name,
    Json.list?_ofList fun d hd => Dimension.reads _ (h.dimensions d hd), Span.reads _ h.span]
  rfl

structure AttributeSpec.Storable (s : AttributeSpec) : Prop where
  name : s.name.Storable
  value : ∀ e ∈ s.value, e.Storable
  span : s.span.Storable

theorem AttributeSpec.reads :
    Reads AttributeSpec.toJson AttributeSpec.ofJson? AttributeSpec.Storable := by
  intro s h
  show (do
    return ⟨← Identifier.ofJson? s.name.toJson,
      ← Json.option? Expr.ofJson? (.ofOption Expr.toJson s.value),
      ← Span.ofJson? s.span.toJson⟩ : Option AttributeSpec) = _
  rw [Identifier.reads _ h.name,
    Json.option?_ofOption rfl fun e he => Expr.reads _ (h.value e he), Span.reads _ h.span]
  rfl

structure Attribute.Storable (a : Attribute) : Prop where
  specs : ∀ s ∈ a.specs, s.Storable
  span : a.span.Storable

theorem Attribute.reads : Reads Attribute.toJson Attribute.ofJson? Attribute.Storable := by
  intro a h
  show (do
    return ⟨← Json.list? AttributeSpec.ofJson? (.ofList AttributeSpec.toJson a.specs),
      ← Span.ofJson? a.span.toJson⟩ : Option Attribute) = _
  rw [Json.list?_ofList fun s hs => AttributeSpec.reads _ (h.specs s hs), Span.reads _ h.span]
  rfl

structure OrderedPort.Storable (p : OrderedPort) : Prop where
  attributes : ∀ a ∈ p.attributes, a.Storable
  expr : ∀ e ∈ p.expr, e.Storable
  span : p.span.Storable

theorem OrderedPort.reads : Reads OrderedPort.toJson OrderedPort.ofJson? OrderedPort.Storable := by
  intro p h
  show (do
    return ⟨← Json.list? Attribute.ofJson? (.ofList Attribute.toJson p.attributes),
      ← Json.option? Expr.ofJson? (.ofOption Expr.toJson p.expr),
      ← Span.ofJson? p.span.toJson⟩ : Option OrderedPort) = _
  rw [Json.list?_ofList fun a ha => Attribute.reads _ (h.attributes a ha),
    Json.option?_ofOption rfl fun e he => Expr.reads _ (h.expr e he), Span.reads _ h.span]
  rfl

def PortTarget.Storable : PortTarget → Prop
  | .wildcard => True
  | .port name actual => name.Storable ∧ ∀ e ∈ actual, e.Storable

theorem PortTarget.reads : Reads PortTarget.toJson PortTarget.ofJson? PortTarget.Storable := by
  intro t h
  cases t with
  | wildcard => rfl
  | port name actual =>
    show (do
      return .port (← Identifier.ofJson? name.toJson)
        (← Json.option? Expr.ofJson? (.ofOption Expr.toJson actual)) : Option PortTarget) = _
    rw [Identifier.reads _ h.1, Json.option?_ofOption rfl fun e he => Expr.reads _ (h.2 e he)]
    rfl

structure NamedPort.Storable (p : NamedPort) : Prop where
  attributes : ∀ a ∈ p.attributes, a.Storable
  target : p.target.Storable
  span : p.span.Storable

theorem NamedPort.reads : Reads NamedPort.toJson NamedPort.ofJson? NamedPort.Storable := by
  intro p h
  show (do
    return ⟨← Json.list? Attribute.ofJson? (.ofList Attribute.toJson p.attributes),
      ← PortTarget.ofJson? p.target.toJson, ← Span.ofJson? p.span.toJson⟩ :
        Option NamedPort) = _
  rw [Json.list?_ofList fun a ha => Attribute.reads _ (h.attributes a ha),
    PortTarget.reads _ h.target, Span.reads _ h.span]
  rfl

def PortList.Storable : PortList → Prop
  | .ordered ports => ∀ p ∈ ports, p.Storable
  | .named ports => ∀ p ∈ ports, p.Storable

theorem PortList.reads : Reads PortList.toJson PortList.ofJson? PortList.Storable := by
  intro l h
  cases l with
  | ordered ports =>
    show (do
      return .ordered (← Json.list? OrderedPort.ofJson? (.ofList OrderedPort.toJson ports)) :
        Option PortList) = _
    rw [Json.list?_ofList fun p hp => OrderedPort.reads _ (h p hp)]
    rfl
  | named ports =>
    show (do
      return .named (← Json.list? NamedPort.ofJson? (.ofList NamedPort.toJson ports)) :
        Option PortList) = _
    rw [Json.list?_ofList fun p hp => NamedPort.reads _ (h p hp)]
    rfl

structure Instance.Storable (i : Instance) : Prop where
  name : i.name.Storable
  connections : i.connections.Storable
  span : i.span.Storable

theorem Instance.reads : Reads Instance.toJson Instance.ofJson? Instance.Storable := by
  intro i h
  show (do
    return ⟨← InstanceName.ofJson? i.name.toJson, ← PortList.ofJson? i.connections.toJson,
      ← Span.ofJson? i.span.toJson⟩ : Option Instance) = _
  rw [InstanceName.reads _ h.name, PortList.reads _ h.connections, Span.reads _ h.span]
  rfl

structure Instantiation.Storable (s : Instantiation) : Prop where
  module : s.module.Storable
  params : ∀ c ∈ s.params, c.Storable
  instances : ∀ i ∈ s.instances, i.Storable
  span : s.span.Storable

theorem Instantiation.reads :
    Reads Instantiation.toJson Instantiation.ofJson? Instantiation.Storable := by
  intro s h
  show (do
    return ⟨← Identifier.ofJson? s.module.toJson,
      ← Json.option? ParamClause.ofJson? (.ofOption ParamClause.toJson s.params),
      ← Json.list? Instance.ofJson? (.ofList Instance.toJson s.instances),
      ← Span.ofJson? s.span.toJson⟩ : Option Instantiation) = _
  rw [Identifier.reads _ h.module,
    Json.option?_ofOption rfl fun c hc => ParamClause.reads _ (h.params c hc),
    Json.list?_ofList fun i hi => Instance.reads _ (h.instances i hi), Span.reads _ h.span]
  rfl

def Item.Storable : Item → Prop
  | .instantiation stmt => stmt.Storable
  | .skipped leading span => leading.Storable ∧ span.Storable
  | .error span => span.Storable

theorem Item.reads : Reads Item.toJson Item.ofJson? Item.Storable := by
  intro i h
  cases i with
  | instantiation stmt =>
    show (do return .instantiation (← Instantiation.ofJson? stmt.toJson) : Option Item) = _
    rw [Instantiation.reads _ h]
    rfl
  | skipped leading span =>
    show (do
      return .skipped (← Span.ofJson? leading.toJson) (← Span.ofJson? span.toJson) :
        Option Item) = _
    rw [Span.reads _ h.1, Span.reads _ h.2]
    rfl
  | error span =>
    show (do return .error (← Span.ofJson? span.toJson) : Option Item) = _
    rw [Span.reads _ h]
    rfl

structure DesignUnit.Storable (u : DesignUnit) : Prop where
  name : u.name.Storable
  items : ∀ i ∈ u.items, i.Storable
  endLabel : ∀ l ∈ u.endLabel, l.Storable
  span : u.span.Storable

theorem DesignUnit.reads : Reads DesignUnit.toJson DesignUnit.ofJson? DesignUnit.Storable := by
  intro u h
  show (do
    return ⟨← Json.oneOf? UnitKind.all (wordName ·.text) (.string (wordName u.kind.text)),
      ← Identifier.ofJson? u.name.toJson,
      ← Json.list? Item.ofJson? (.ofList Item.toJson u.items),
      ← Json.option? Identifier.ofJson? (.ofOption Identifier.toJson u.endLabel),
      ← Span.ofJson? u.span.toJson⟩ : Option DesignUnit) = _
  rw [oneOf?_unit, Identifier.reads _ h.name,
    Json.list?_ofList fun i hi => Item.reads _ (h.items i hi),
    Json.option?_ofOption rfl fun l hl => Identifier.reads _ (h.endLabel l hl),
    Span.reads _ h.span]
  rfl

structure SourceText.Storable (t : SourceText) : Prop where
  units : ∀ u ∈ t.units, u.Storable
  span : t.span.Storable

theorem SourceText.reads : Reads SourceText.toJson SourceText.ofJson? SourceText.Storable := by
  intro t h
  show (do
    return ⟨← Json.list? DesignUnit.ofJson? (.ofList DesignUnit.toJson t.units),
      ← Span.ofJson? t.span.toJson⟩ : Option SourceText) = _
  rw [Json.list?_ofList fun u hu => DesignUnit.reads _ (h.units u hu), Span.reads _ h.span]
  rfl

end Records

end Netlist.Syntax
