import Netlist.Operator
import Netlist.Proofs.Syntax.Nodes
import Netlist.Syntax.Tree

/-!
The nodes of syntax trees and what they are made of, in the order of the source. What has no span of
its own is no node: its parts belong to the node around it, and a tree that only wraps another one
has the same node.
-/
namespace Netlist.Syntax

def Identifier.node (i : Identifier) : Node := .leaf Kind.isIdentifier i.span

/-- Names that each stand behind a dot. -/
def afterDots (names : List Identifier) : List Part :=
  names.flatMap fun i => [.mark .dot, i.node.part]

/-- Names with dots between them. -/
def betweenDots : List Identifier → List Part
  | [] => []
  | i :: names => i.node.part :: afterDots names

theorem betweenDots_append {names : List Identifier} (h : names ≠ []) (more : List Identifier) :
    betweenDots (names ++ more) = betweenDots names ++ afterDots more := by
  cases names with
  | nil => exact absurd rfl h
  | cons i names =>
    rw [List.cons_append, betweenDots, afterDots, List.flatMap_append]
    rfl

def isNumber (kind : Kind) : Bool :=
  kind = .intLiteral || kind = .sizedLiteral || kind = .fillLiteral

mutual

def Expr.node : Expr → Node
  | .identifier name => ⟨name.span, [name.node.part]⟩
  | .hierarchical parts span => ⟨span, betweenDots parts⟩
  | .scoped scope name span => ⟨span, [scope.node.part, .mark .colonColon, name.node.part]⟩
  | .literal span => .leaf isNumber span
  | .realLiteral span => .leaf (· = .realLiteral) span
  | .stringLiteral span => .leaf (· = .stringLiteral) span
  | .index base place span =>
    ⟨span, [base.node.part, .mark .leftBracket, place.node.part, .mark .rightBracket]⟩
  | .rangeSelect base msb lsb span =>
    ⟨span, [base.node.part, .mark .leftBracket, msb.node.part, .mark .colon, lsb.node.part,
      .mark .rightBracket]⟩
  | .partSelect base place ascending width span =>
    ⟨span, [base.node.part, .mark .leftBracket, place.node.part,
      .mark (if ascending then .plusColon else .minusColon), width.node.part,
      .mark .rightBracket]⟩
  | .concat elements span =>
    ⟨span, .mark .leftBrace :: (betweenCommas (Expr.nodes elements) ++ [.mark .rightBrace])⟩
  | .replicate count elements span =>
    ⟨span, .mark .leftBrace :: count.node.part :: .mark .leftBrace ::
      (betweenCommas (Expr.nodes elements) ++ [.mark .rightBrace, .mark .rightBrace])⟩
  | .unary op operand span => ⟨span, [.mark op.kind, operand.node.part]⟩
  | .binary left op right span => ⟨span, [left.node.part, .mark op.kind, right.node.part]⟩
  | .ternary condition thenExpr elseExpr span =>
    ⟨span, [condition.node.part, .mark .question, thenExpr.node.part, .mark .colon,
      elseExpr.node.part]⟩
  | .call callee args span =>
    ⟨span, callee.node.part :: .mark .leftParen ::
      (betweenCommas (Expr.nodes args) ++ [.mark .rightParen])⟩
  | .systemCall name [] span =>
    ⟨span, [(Node.leaf (· = .systemIdentifier) name.span).part,
      .perhaps [.leftParen, .rightParen]]⟩
  | .systemCall name (arg :: args) span =>
    ⟨span, (Node.leaf (· = .systemIdentifier) name.span).part :: .mark .leftParen ::
      (betweenCommas (Expr.nodes (arg :: args)) ++ [.mark .rightParen])⟩
  | .paren inner span => ⟨span, [.mark .leftParen, inner.node.part, .mark .rightParen]⟩
  | .error span => .leaf (· = .error) span

def Expr.nodes : List Expr → List Node
  | [] => []
  | e :: es => e.node :: Expr.nodes es

end

theorem Expr.span_node (e : Expr) : e.node.span = e.span := by
  cases e with
  | systemCall name args span => cases args <;> rfl
  | _ => rfl

theorem Expr.over_span {file : Nat} {e : Expr} {ts : List Token} (h : e.node.Over file ts) :
    e.span.Over file ts := e.span_node ▸ h.span

theorem Expr.nodes_eq_map (es : List Expr) : Expr.nodes es = es.map Expr.node := by
  induction es with
  | nil => rfl
  | cons e es ih => rw [Expr.nodes, ih, List.map_cons]

def Range.node (range : Range) : Node :=
  ⟨range.span, [.mark .leftBracket, range.msb.node.part, .mark .colon, range.lsb.node.part,
    .mark .rightBracket]⟩

def DataType.node (type : DataType) : Node :=
  ⟨type.span, .mark (.dataType type.kind) ::
    ((type.signing.map fun s => (Node.leaf (· = .signing s.1) s.2).part).toList ++
      type.packed.map fun range => range.node.part)⟩

def ParamValue.node : ParamValue → Node
  | .expr value => value.node
  | .dataType type => type.node

def NamedParam.node (param : NamedParam) : Node :=
  ⟨param.span, .mark .dot :: param.name.node.part :: .mark .leftParen ::
    ((param.value.map fun value => value.node.part).toList ++ [.mark .rightParen])⟩

def ParamList.nodes : ParamList → List Node
  | .ordered values => values.map ParamValue.node
  | .named items => items.map NamedParam.node

def ParamClause.node (clause : ParamClause) : Node :=
  ⟨clause.span, .mark .hash :: .mark .leftParen ::
    (betweenCommas (clause.list.elim [] ParamList.nodes) ++ [.mark .rightParen])⟩

def Dimension.node : Dimension → Node
  | .range bounds => bounds.node
  | .size e span => ⟨span, [.mark .leftBracket, e.node.part, .mark .rightBracket]⟩

def InstanceName.node (name : InstanceName) : Node :=
  ⟨name.span, name.name.node.part :: name.dimensions.map fun dim => dim.node.part⟩

def AttributeSpec.node (spec : AttributeSpec) : Node :=
  ⟨spec.span, spec.name.node.part :: spec.value.elim [] fun e => [.mark .equals, e.node.part]⟩

def Attribute.node (attr : Attribute) : Node :=
  ⟨attr.span, .mark .attrOpen ::
    (betweenCommas (attr.specs.map AttributeSpec.node) ++ [.mark .attrClose])⟩

/-- Attributes in front of a port. -/
def attributeParts (attributes : List Attribute) : List Part :=
  attributes.map fun attr => attr.node.part

def OrderedPort.node (port : OrderedPort) : Node :=
  ⟨port.span, attributeParts port.attributes ++ (port.expr.map fun e => e.node.part).toList⟩

def PortTarget.parts : PortTarget → List Part
  | .wildcard => [.mark .star]
  | .port name none => [name.node.part, .perhaps [.leftParen, .rightParen]]
  | .port name (some actual) =>
    [name.node.part, .mark .leftParen, actual.node.part, .mark .rightParen]

def NamedPort.node (port : NamedPort) : Node :=
  ⟨port.span, attributeParts port.attributes ++ .mark .dot :: port.target.parts⟩

def PortList.nodes : PortList → List Node
  | .ordered ports => ports.map OrderedPort.node
  | .named ports => ports.map NamedPort.node

/-- The ports of an instance in their parentheses. -/
def PortList.parts (list : PortList) : List Part :=
  .mark .leftParen :: (betweenCommas list.nodes ++ [.mark .rightParen])

def Instance.node (inst : Instance) : Node :=
  ⟨inst.span, inst.name.node.part :: inst.connections.parts⟩

def Instantiation.node (stmt : Instantiation) : Node :=
  ⟨stmt.span, stmt.module.node.part :: ((stmt.params.map fun clause => clause.node.part).toList ++
    (betweenCommas (stmt.instances.map Instance.node) ++ [.mark .semicolon]))⟩

/-- Of an item that is passed over only the first token is a node. -/
def Item.node : Item → Node
  | .instantiation stmt => stmt.node
  | .skipped leading span =>
    ⟨span, [(Node.leaf (fun _ => true) leading).part, .tokens fun _ => true]⟩
  | .error span => ⟨span, [.tokens fun _ => true]⟩

/-- Semicolons that stand alone. -/
def semicolons : Part := .tokens fun kind => kind = .semicolon

/-- What is skipped behind the name of a unit. -/
def isHeaderKind (kind : Kind) : Bool := kind ≠ .semicolon && !kind.isUnitBoundary

/-- Items, with semicolons between them. -/
def bodyParts (items : List Item) : List Part :=
  semicolons :: items.flatMap fun item => [item.node.part, semicolons]

def DesignUnit.node (unit : DesignUnit) : Node :=
  ⟨unit.span, .mark (.unitStart unit.kind) :: unit.name.node.part :: .tokens isHeaderKind ::
    (bodyParts unit.items ++ .mark (.unitEnd unit.kind) ::
      unit.endLabel.elim [] fun label => [.mark .colon, label.node.part])⟩

def SourceText.node (text : SourceText) : Node :=
  ⟨text.span, text.units.map fun unit => unit.node.part⟩

end Netlist.Syntax
