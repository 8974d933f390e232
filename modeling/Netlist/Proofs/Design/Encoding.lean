import Netlist.Design.Json
import Netlist.Proofs.Syntax.Encoding

/-!
Design trees are read back from their JSON as syntax trees are. Besides names and places they hold
the values of integer literals, which are numbers of 64 bits, and the widths of based literals.
-/
namespace Netlist

namespace Design

open Json (Reads)

theorem oneOf?_radix (r : Radix) : Radix.ofJson? (.string r.name) = some r := by
  cases r <;> rfl

theorem oneOf?_joint (joint : Joint) : Joint.ofJson? (.string joint.name) = some joint := by
  cases joint with
  | operator op => cases op <;> rfl
  | _ => rfl

namespace Literal

/-- The numbers of a literal fit their words. -/
def Storable : Literal → Prop
  | .int value => value < UInt64.size
  | .based width _ _ _ => ∀ w ∈ width, w < UInt32.size
  | .fill _ => True
  | .real _ => True
  | .str _ => True

theorem reads : Reads toJson ofJson? Storable := by
  intro l h
  cases l with
  | int value =>
    show (do return .int (← (Json.ofNat value).wideWord?) : Option Literal) = _
    rw [Json.wideWord?_ofNat h]
    rfl
  | based width signed radix digits =>
    show (do
      return .based (← Json.option? Json.word? (.ofOption .ofNat width))
        (← (Json.bool signed).bool?) (← Radix.ofJson? (.string radix.name))
        (← (Json.string digits).string?) : Option Literal) = _
    rw [Json.option?_ofOption rfl fun w hw => Json.word?_ofNat (h w hw), oneOf?_radix]
    rfl
  | fill digit =>
    show (do return .fill (← (Json.string digit.toString).char?) : Option Literal) = _
    rw [Json.char?_toString]
    rfl
  | real text => rfl
  | str text => rfl

end Literal

namespace Expr

mutual

/-- The numbers in an expression fit their words. -/
def Storable : Expr → Prop
  | .id name => name < UInt32.size
  | .literal value => value.Storable
  | .all => True
  | .null => True
  | .unary _ operand => operand.Storable
  | .binary _ left right => left.Storable ∧ right.Storable
  | .ternary cond ifTrue ifFalse => cond.Storable ∧ ifTrue.Storable ∧ ifFalse.Storable
  | .call callee args => callee.Storable ∧ AllStorable args
  | .concat elements => AllStorable elements
  | .replicate count elements => count.Storable ∧ AllStorable elements

def AllStorable : List Expr → Prop
  | [] => True
  | e :: es => e.Storable ∧ AllStorable es

end

mutual

theorem readsWithin : (e : Expr) → e.Storable → ∀ bound, e.toJson.depth ≤ bound →
    ofJsonWithin? bound e.toJson = some e
  | .id name, h => Json.reads_of_succ fun bound _ => by
    show (do return .id (← (Json.ofNat name).word?) : Option Expr) = _
    rw [Json.word?_ofNat h]
    rfl
  | .literal value, h => Json.reads_of_succ fun bound _ => by
    show (do return .literal (← Literal.ofJson? value.toJson) : Option Expr) = _
    rw [Literal.reads _ h]
    rfl
  | .all, _ => Json.reads_of_succ fun _ _ => rfl
  | .null, _ => Json.reads_of_succ fun _ _ => rfl
  | .unary op operand, h => Json.reads_of_succ fun bound hdepth => by
    show (do
      return .unary (← Json.oneOf? UnaryOp.all UnaryOp.name (.string op.name))
        (← ofJsonWithin? bound operand.toJson) : Option Expr) = _
    rw [Syntax.Expr.oneOf?_unary,
      readsWithin operand h bound (Json.depth_le_field hdepth (by simp))]
    rfl
  | .binary joint left right, h => Json.reads_of_succ fun bound hdepth => by
    obtain ⟨hleft, hright⟩ := h
    show (do
      return .binary (← Joint.ofJson? (.string joint.name)) (← ofJsonWithin? bound left.toJson)
        (← ofJsonWithin? bound right.toJson) : Option Expr) = _
    rw [oneOf?_joint, readsWithin left hleft bound (Json.depth_le_field hdepth (by simp)),
      readsWithin right hright bound (Json.depth_le_field hdepth (by simp))]
    rfl
  | .ternary cond ifTrue ifFalse, h => Json.reads_of_succ fun bound hdepth => by
    obtain ⟨hcond, hifTrue, hifFalse⟩ := h
    show (do
      return .ternary (← ofJsonWithin? bound cond.toJson) (← ofJsonWithin? bound ifTrue.toJson)
        (← ofJsonWithin? bound ifFalse.toJson) : Option Expr) = _
    rw [readsWithin cond hcond bound (Json.depth_le_field hdepth (by simp)),
      readsWithin ifTrue hifTrue bound (Json.depth_le_field hdepth (by simp)),
      readsWithin ifFalse hifFalse bound (Json.depth_le_field hdepth (by simp))]
    rfl
  | .call callee args, h => Json.reads_of_succ fun bound hdepth => by
    obtain ⟨hcallee, hargs⟩ := h
    show (do
      return .call (← ofJsonWithin? bound callee.toJson)
        (← (listToJson args).mapM (ofJsonWithin? bound)) : Option Expr) = _
    rw [readsWithin callee hcallee bound (Json.depth_le_field hdepth (by simp)),
      allReadWithin args hargs bound (Json.depth_le_item (Json.depth_le_field hdepth (by simp)))]
    rfl
  | .concat elements, h => Json.reads_of_succ fun bound hdepth => by
    show (do return .concat (← (listToJson elements).mapM (ofJsonWithin? bound)) :
      Option Expr) = _
    rw [allReadWithin elements h bound (Json.depth_le_item (Json.depth_le_content hdepth))]
    rfl
  | .replicate count elements, h => Json.reads_of_succ fun bound hdepth => by
    obtain ⟨hcount, helements⟩ := h
    show (do
      return .replicate (← ofJsonWithin? bound count.toJson)
        (← (listToJson elements).mapM (ofJsonWithin? bound)) : Option Expr) = _
    rw [readsWithin count hcount bound (Json.depth_le_field hdepth (by simp)),
      allReadWithin elements helements bound
        (Json.depth_le_item (Json.depth_le_field hdepth (by simp)))]
    rfl

theorem allReadWithin : (es : List Expr) → AllStorable es → ∀ bound,
    (∀ j ∈ listToJson es, j.depth ≤ bound) →
    (listToJson es).mapM (ofJsonWithin? bound) = some es
  | [], _, _, _ => rfl
  | e :: es, h, bound, hdepth => by
    obtain ⟨he, hes⟩ := h
    obtain ⟨hfirst, hlater⟩ := List.forall_mem_cons.mp hdepth
    rw [listToJson, List.mapM_cons, readsWithin e he bound hfirst,
      allReadWithin es hes bound hlater]
    rfl

end

theorem reads : Reads Expr.toJson Expr.ofJson? Expr.Storable :=
  fun e h => readsWithin e h _ (Nat.le_refl _)

theorem listToJson_eq (es : List Expr) : listToJson es = es.map toJson := by
  induction es with
  | nil => rfl
  | cons e es ih => rw [listToJson, ih, List.map_cons]

end Expr

structure Instance.Storable (i : Instance) : Prop where
  name : i.name.Storable
  module : i.module.Storable
  generics : ∀ e ∈ i.generics, e.Storable
  ports : ∀ e ∈ i.ports, e.Storable
  span : i.span.Storable

theorem Instance.reads : Reads Instance.toJson Instance.ofJson? Instance.Storable := by
  intro i h
  have hlist (es : List Expr) : Json.array (Expr.listToJson es) = .ofList Expr.toJson es :=
    congrArg Json.array (Expr.listToJson_eq es)
  show (do
    return ⟨← Expr.ofJson? i.name.toJson, ← Expr.ofJson? i.module.toJson,
      ← Json.list? Expr.ofJson? (.array (Expr.listToJson i.generics)),
      ← Json.list? Expr.ofJson? (.array (Expr.listToJson i.ports)),
      ← Span.ofJson? i.span.toJson⟩ : Option Instance) = _
  rw [Expr.reads _ h.name, Expr.reads _ h.module, hlist, hlist,
    Json.list?_ofList fun e he => Expr.reads _ (h.generics e he),
    Json.list?_ofList fun e he => Expr.reads _ (h.ports e he), Span.reads _ h.span]
  rfl

structure Module.Storable (m : Module) : Prop where
  name : m.name.Storable
  instances : ∀ i ∈ m.instances, i.Storable
  span : m.span.Storable

theorem Module.reads : Reads Module.toJson Module.ofJson? Module.Storable := by
  intro m h
  show (do
    return ⟨← Expr.ofJson? m.name.toJson,
      ← Json.list? Instance.ofJson? (.ofList Instance.toJson m.instances),
      ← Span.ofJson? m.span.toJson⟩ : Option Module) = _
  rw [Expr.reads _ h.name, Json.list?_ofList fun i hi => Instance.reads _ (h.instances i hi),
    Span.reads _ h.span]
  rfl

end Design

/-- The JSON of syntax trees and of all their parts loses nothing. -/
structure Syntax.Lossless : Prop where
  span : Json.Lossless Span.toJson Span.ofJson? Span.Storable
  identifier : Json.Lossless Identifier.toJson Identifier.ofJson? Identifier.Storable
  unaryOp : Json.Lossless (fun op => .string (UnaryOp.name op))
    (Json.oneOf? UnaryOp.all UnaryOp.name) fun _ => True
  binaryOp : Json.Lossless (fun op => .string (BinaryOp.name op))
    (Json.oneOf? BinaryOp.all BinaryOp.name) fun _ => True
  expr : Json.Lossless Expr.toJson Expr.ofJson? Expr.Storable
  range : Json.Lossless Range.toJson Range.ofJson? Range.Storable
  builtinType : Json.Lossless (fun kind => .string (wordName (BuiltinType.text kind)))
    (Json.oneOf? BuiltinType.all (wordName ·.text)) fun _ => True
  signing : Json.Lossless signingToJson signingOfJson? fun s => s.2.Storable
  dataType : Json.Lossless DataType.toJson DataType.ofJson? DataType.Storable
  paramValue : Json.Lossless ParamValue.toJson ParamValue.ofJson? ParamValue.Storable
  namedParam : Json.Lossless NamedParam.toJson NamedParam.ofJson? NamedParam.Storable
  paramList : Json.Lossless ParamList.toJson ParamList.ofJson? ParamList.Storable
  paramClause : Json.Lossless ParamClause.toJson ParamClause.ofJson? ParamClause.Storable
  dimension : Json.Lossless Dimension.toJson Dimension.ofJson? Dimension.Storable
  instanceName : Json.Lossless InstanceName.toJson InstanceName.ofJson? InstanceName.Storable
  attributeSpec : Json.Lossless AttributeSpec.toJson AttributeSpec.ofJson? AttributeSpec.Storable
  attributeGroup : Json.Lossless Attribute.toJson Attribute.ofJson? Attribute.Storable
  orderedPort : Json.Lossless OrderedPort.toJson OrderedPort.ofJson? OrderedPort.Storable
  portTarget : Json.Lossless PortTarget.toJson PortTarget.ofJson? PortTarget.Storable
  namedPort : Json.Lossless NamedPort.toJson NamedPort.ofJson? NamedPort.Storable
  portList : Json.Lossless PortList.toJson PortList.ofJson? PortList.Storable
  hierarchicalInstance : Json.Lossless Instance.toJson Instance.ofJson? Instance.Storable
  instantiation : Json.Lossless Instantiation.toJson Instantiation.ofJson? Instantiation.Storable
  item : Json.Lossless Item.toJson Item.ofJson? Item.Storable
  unitKind : Json.Lossless (fun kind => .string (wordName (UnitKind.text kind)))
    (Json.oneOf? UnitKind.all (wordName ·.text)) fun _ => True
  designUnit : Json.Lossless DesignUnit.toJson DesignUnit.ofJson? DesignUnit.Storable
  sourceText : Json.Lossless SourceText.toJson SourceText.ofJson? SourceText.Storable

/-- The JSON of design trees and of all their parts loses nothing. -/
structure Design.Lossless : Prop where
  radix : Json.Lossless (fun r => .string (Radix.name r)) Radix.ofJson? fun _ => True
  literal : Json.Lossless Literal.toJson Literal.ofJson? Literal.Storable
  joint : Json.Lossless (fun joint => .string (Joint.name joint)) Joint.ofJson? fun _ => True
  expr : Json.Lossless Expr.toJson Expr.ofJson? Expr.Storable
  inst : Json.Lossless Instance.toJson Instance.ofJson? Instance.Storable
  module : Json.Lossless Module.toJson Module.ofJson? Module.Storable

end Netlist
