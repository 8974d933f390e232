import Netlist.Syntax.Tree
import Netlist.Source.Json

/-!
Syntax trees in JSON.
-/
namespace Netlist.Syntax

namespace Identifier

def toJson (i : Identifier) : Json :=
  .object [("name", .ofNat i.name), ("span", i.span.toJson)]

def ofJson? (j : Json) : Option Identifier := do
  let [name, span] ← j.record? ["name", "span"] | none
  return ⟨← name.word?, ← Span.ofJson? span⟩

end Identifier

namespace Expr

mutual

def toJson : Expr → Json
  | .identifier name => .tagged "Identifier" (.object [("name", name.toJson)])
  | .hierarchical parts span =>
    .tagged "HierarchicalName" (.object [("parts", .ofList Identifier.toJson parts),
      ("span", span.toJson)])
  | .scoped scope name span =>
    .tagged "ScopedIdent" (.object [("scope", scope.toJson), ("name", name.toJson),
      ("span", span.toJson)])
  | .literal span => .tagged "Literal" (.object [("span", span.toJson)])
  | .realLiteral span => .tagged "RealLiteral" (.object [("span", span.toJson)])
  | .stringLiteral span => .tagged "StringLiteral" (.object [("span", span.toJson)])
  | .index base place span =>
    .tagged "Index" (.object [("base", toJson base), ("index", toJson place),
      ("span", span.toJson)])
  | .rangeSelect base msb lsb span =>
    .tagged "RangeSelect" (.object [("base", toJson base), ("msb", toJson msb),
      ("lsb", toJson lsb), ("span", span.toJson)])
  | .partSelect base place ascending width span =>
    .tagged "PartSelect" (.object [("base", toJson base), ("index", toJson place),
      ("ascending", .bool ascending), ("width", toJson width), ("span", span.toJson)])
  | .concat elements span =>
    .tagged "Concat" (.object [("elements", .array (listToJson elements)),
      ("span", span.toJson)])
  | .replicate count elements span =>
    .tagged "Repeat" (.object [("count", toJson count),
      ("elements", .array (listToJson elements)), ("span", span.toJson)])
  | .unary op operand span =>
    .tagged "Unary" (.object [("op", .string op.name), ("operand", toJson operand),
      ("span", span.toJson)])
  | .binary left op right span =>
    .tagged "Binary" (.object [("left", toJson left), ("op", .string op.name),
      ("right", toJson right), ("span", span.toJson)])
  | .ternary condition thenExpr elseExpr span =>
    .tagged "Ternary" (.object [("condition", toJson condition),
      ("then_expr", toJson thenExpr), ("else_expr", toJson elseExpr), ("span", span.toJson)])
  | .call callee args span =>
    .tagged "FuncCall" (.object [("name", toJson callee), ("args", .array (listToJson args)),
      ("span", span.toJson)])
  | .systemCall name args span =>
    .tagged "SystemCall" (.object [("name", name.toJson), ("args", .array (listToJson args)),
      ("span", span.toJson)])
  | .paren inner span =>
    .tagged "Paren" (.object [("inner", toJson inner), ("span", span.toJson)])
  | .error span => .tagged "Error" span.toJson

def listToJson : List Expr → List Json
  | [] => []
  | e :: es => toJson e :: listToJson es

end

/-- Reads an expression nested at most `bound` deep. -/
def ofJsonWithin? : (bound : Nat) → Json → Option Expr
  | 0, _ => none
  | bound + 1, j => do
    let (name, some content) ← j.alternative? | none
    match name with
    | "Identifier" =>
      let [name] ← content.members? ["name"] | none
      return .identifier (← Identifier.ofJson? name)
    | "HierarchicalName" =>
      let [parts, span] ← content.members? ["parts", "span"] | none
      return .hierarchical (← Json.list? Identifier.ofJson? parts) (← Span.ofJson? span)
    | "ScopedIdent" =>
      let [scope, name, span] ← content.members? ["scope", "name", "span"] | none
      return .scoped (← Identifier.ofJson? scope) (← Identifier.ofJson? name)
        (← Span.ofJson? span)
    | "Literal" =>
      let [span] ← content.members? ["span"] | none
      return .literal (← Span.ofJson? span)
    | "RealLiteral" =>
      let [span] ← content.members? ["span"] | none
      return .realLiteral (← Span.ofJson? span)
    | "StringLiteral" =>
      let [span] ← content.members? ["span"] | none
      return .stringLiteral (← Span.ofJson? span)
    | "Index" =>
      let [base, place, span] ← content.members? ["base", "index", "span"] | none
      return .index (← ofJsonWithin? bound base) (← ofJsonWithin? bound place)
        (← Span.ofJson? span)
    | "RangeSelect" =>
      let [base, msb, lsb, span] ← content.members? ["base", "msb", "lsb", "span"] | none
      return .rangeSelect (← ofJsonWithin? bound base) (← ofJsonWithin? bound msb)
        (← ofJsonWithin? bound lsb) (← Span.ofJson? span)
    | "PartSelect" =>
      let [base, place, ascending, width, span] ←
        content.members? ["base", "index", "ascending", "width", "span"] | none
      return .partSelect (← ofJsonWithin? bound base) (← ofJsonWithin? bound place)
        (← ascending.bool?) (← ofJsonWithin? bound width) (← Span.ofJson? span)
    | "Concat" =>
      let [elements, span] ← content.members? ["elements", "span"] | none
      return .concat (← Json.list? (ofJsonWithin? bound) elements) (← Span.ofJson? span)
    | "Repeat" =>
      let [count, elements, span] ← content.members? ["count", "elements", "span"] | none
      return .replicate (← ofJsonWithin? bound count)
        (← Json.list? (ofJsonWithin? bound) elements) (← Span.ofJson? span)
    | "Unary" =>
      let [op, operand, span] ← content.members? ["op", "operand", "span"] | none
      return .unary (← Json.oneOf? UnaryOp.all UnaryOp.name op) (← ofJsonWithin? bound operand)
        (← Span.ofJson? span)
    | "Binary" =>
      let [left, op, right, span] ← content.members? ["left", "op", "right", "span"] | none
      return .binary (← ofJsonWithin? bound left) (← Json.oneOf? BinaryOp.all BinaryOp.name op)
        (← ofJsonWithin? bound right) (← Span.ofJson? span)
    | "Ternary" =>
      let [condition, thenExpr, elseExpr, span] ←
        content.members? ["condition", "then_expr", "else_expr", "span"] | none
      return .ternary (← ofJsonWithin? bound condition) (← ofJsonWithin? bound thenExpr)
        (← ofJsonWithin? bound elseExpr) (← Span.ofJson? span)
    | "FuncCall" =>
      let [callee, args, span] ← content.members? ["name", "args", "span"] | none
      return .call (← ofJsonWithin? bound callee) (← Json.list? (ofJsonWithin? bound) args)
        (← Span.ofJson? span)
    | "SystemCall" =>
      let [name, args, span] ← content.members? ["name", "args", "span"] | none
      return .systemCall (← Identifier.ofJson? name) (← Json.list? (ofJsonWithin? bound) args)
        (← Span.ofJson? span)
    | "Paren" =>
      let [inner, span] ← content.members? ["inner", "span"] | none
      return .paren (← ofJsonWithin? bound inner) (← Span.ofJson? span)
    | "Error" => return .error (← Span.ofJson? content)
    | _ => none

/-- Reads an expression; it is nested no deeper than the value it is read from. -/
def ofJson? (j : Json) : Option Expr := ofJsonWithin? j.depth j

end Expr

namespace Range

def toJson (r : Range) : Json :=
  .object [("msb", r.msb.toJson), ("lsb", r.lsb.toJson), ("span", r.span.toJson)]

def ofJson? (j : Json) : Option Range := do
  let [msb, lsb, span] ← j.record? ["msb", "lsb", "span"] | none
  return ⟨← Expr.ofJson? msb, ← Expr.ofJson? lsb, ← Span.ofJson? span⟩

end Range

/-- The name of a built-in type or signing: its word with a capital. -/
def wordName (text : String) : String := String.ofList (Kind.raised text.toList true)

def signingToJson : Signing × Span → Json
  | (signing, span) => .array [.string (wordName signing.text), span.toJson]

def signingOfJson? : Json → Option (Signing × Span)
  | .array [signing, span] => do
    return (← Json.oneOf? Signing.all (wordName ·.text) signing, ← Span.ofJson? span)
  | _ => none

namespace DataType

def toJson (t : DataType) : Json :=
  .object [("kind", .string (wordName t.kind.text)),
    ("signing", .ofOption signingToJson t.signing), ("packed", .ofList Range.toJson t.packed),
    ("span", t.span.toJson)]

def ofJson? (j : Json) : Option DataType := do
  let [kind, signing, packed, span] ← j.record? ["kind", "signing", "packed", "span"] | none
  return ⟨← Json.oneOf? BuiltinType.all (wordName ·.text) kind,
    ← Json.option? signingOfJson? signing, ← Json.list? Range.ofJson? packed,
    ← Span.ofJson? span⟩

end DataType

namespace ParamValue

def toJson : ParamValue → Json
  | .expr value => .tagged "Expr" value.toJson
  | .dataType type => .tagged "DataType" type.toJson

def ofJson? (j : Json) : Option ParamValue := do
  match ← j.alternative? with
  | ("Expr", some content) => return .expr (← Expr.ofJson? content)
  | ("DataType", some content) => return .dataType (← DataType.ofJson? content)
  | _ => none

end ParamValue

namespace NamedParam

def toJson (p : NamedParam) : Json :=
  .object [("name", p.name.toJson), ("value", .ofOption ParamValue.toJson p.value),
    ("span", p.span.toJson)]

def ofJson? (j : Json) : Option NamedParam := do
  let [name, value, span] ← j.record? ["name", "value", "span"] | none
  return ⟨← Identifier.ofJson? name, ← Json.option? ParamValue.ofJson? value,
    ← Span.ofJson? span⟩

end NamedParam

namespace ParamList

def toJson : ParamList → Json
  | .ordered values => .tagged "Ordered" (.ofList ParamValue.toJson values)
  | .named items => .tagged "Named" (.ofList NamedParam.toJson items)

def ofJson? (j : Json) : Option ParamList := do
  match ← j.alternative? with
  | ("Ordered", some content) => return .ordered (← Json.list? ParamValue.ofJson? content)
  | ("Named", some content) => return .named (← Json.list? NamedParam.ofJson? content)
  | _ => none

end ParamList

namespace ParamClause

def toJson (c : ParamClause) : Json :=
  .object [("assignments", .ofOption ParamList.toJson c.list), ("span", c.span.toJson)]

def ofJson? (j : Json) : Option ParamClause := do
  let [list, span] ← j.record? ["assignments", "span"] | none
  return ⟨← Json.option? ParamList.ofJson? list, ← Span.ofJson? span⟩

end ParamClause

namespace Dimension

def toJson : Dimension → Json
  | .range bounds => .tagged "Range" bounds.toJson
  | .size count span => .tagged "Size" (.object [("size", count.toJson), ("span", span.toJson)])

def ofJson? (j : Json) : Option Dimension := do
  match ← j.alternative? with
  | ("Range", some content) => return .range (← Range.ofJson? content)
  | ("Size", some content) =>
    let [count, span] ← content.members? ["size", "span"] | none
    return .size (← Expr.ofJson? count) (← Span.ofJson? span)
  | _ => none

end Dimension

namespace InstanceName

def toJson (n : InstanceName) : Json :=
  .object [("name", n.name.toJson), ("dimensions", .ofList Dimension.toJson n.dimensions),
    ("span", n.span.toJson)]

def ofJson? (j : Json) : Option InstanceName := do
  let [name, dimensions, span] ← j.record? ["name", "dimensions", "span"] | none
  return ⟨← Identifier.ofJson? name, ← Json.list? Dimension.ofJson? dimensions,
    ← Span.ofJson? span⟩

end InstanceName

namespace AttributeSpec

def toJson (s : AttributeSpec) : Json :=
  .object [("name", s.name.toJson), ("value", .ofOption Expr.toJson s.value),
    ("span", s.span.toJson)]

def ofJson? (j : Json) : Option AttributeSpec := do
  let [name, value, span] ← j.record? ["name", "value", "span"] | none
  return ⟨← Identifier.ofJson? name, ← Json.option? Expr.ofJson? value, ← Span.ofJson? span⟩

end AttributeSpec

namespace Attribute

def toJson (a : Attribute) : Json :=
  .object [("specs", .ofList AttributeSpec.toJson a.specs), ("span", a.span.toJson)]

def ofJson? (j : Json) : Option Attribute := do
  let [specs, span] ← j.record? ["specs", "span"] | none
  return ⟨← Json.list? AttributeSpec.ofJson? specs, ← Span.ofJson? span⟩

end Attribute

namespace OrderedPort

def toJson (p : OrderedPort) : Json :=
  .object [("attributes", .ofList Attribute.toJson p.attributes),
    ("expr", .ofOption Expr.toJson p.expr), ("span", p.span.toJson)]

def ofJson? (j : Json) : Option OrderedPort := do
  let [attributes, expr, span] ← j.record? ["attributes", "expr", "span"] | none
  return ⟨← Json.list? Attribute.ofJson? attributes, ← Json.option? Expr.ofJson? expr,
    ← Span.ofJson? span⟩

end OrderedPort

namespace PortTarget

def toJson : PortTarget → Json
  | .wildcard => .string "Wildcard"
  | .port name actual =>
    .tagged "Port" (.object [("name", name.toJson), ("actual", .ofOption Expr.toJson actual)])

def ofJson? (j : Json) : Option PortTarget := do
  match ← j.alternative? with
  | ("Wildcard", none) => return .wildcard
  | ("Wildcard", some .null) => return .wildcard
  | ("Port", some content) =>
    let [name, actual] ← content.members? ["name", "actual"] | none
    return .port (← Identifier.ofJson? name) (← Json.option? Expr.ofJson? actual)
  | _ => none

end PortTarget

namespace NamedPort

def toJson (p : NamedPort) : Json :=
  .object [("attributes", .ofList Attribute.toJson p.attributes), ("target", p.target.toJson),
    ("span", p.span.toJson)]

def ofJson? (j : Json) : Option NamedPort := do
  let [attributes, target, span] ← j.record? ["attributes", "target", "span"] | none
  return ⟨← Json.list? Attribute.ofJson? attributes, ← PortTarget.ofJson? target,
    ← Span.ofJson? span⟩

end NamedPort

namespace PortList

def toJson : PortList → Json
  | .ordered ports => .tagged "Ordered" (.ofList OrderedPort.toJson ports)
  | .named ports => .tagged "Named" (.ofList NamedPort.toJson ports)

def ofJson? (j : Json) : Option PortList := do
  match ← j.alternative? with
  | ("Ordered", some content) => return .ordered (← Json.list? OrderedPort.ofJson? content)
  | ("Named", some content) => return .named (← Json.list? NamedPort.ofJson? content)
  | _ => none

end PortList

namespace Instance

def toJson (i : Instance) : Json :=
  .object [("name", i.name.toJson), ("connections", i.connections.toJson),
    ("span", i.span.toJson)]

def ofJson? (j : Json) : Option Instance := do
  let [name, connections, span] ← j.record? ["name", "connections", "span"] | none
  return ⟨← InstanceName.ofJson? name, ← PortList.ofJson? connections, ← Span.ofJson? span⟩

end Instance

namespace Instantiation

def toJson (s : Instantiation) : Json :=
  .object [("module", s.module.toJson), ("params", .ofOption ParamClause.toJson s.params),
    ("instances", .ofList Instance.toJson s.instances), ("span", s.span.toJson)]

def ofJson? (j : Json) : Option Instantiation := do
  let [module, params, instances, span] ←
    j.record? ["module", "params", "instances", "span"] | none
  return ⟨← Identifier.ofJson? module, ← Json.option? ParamClause.ofJson? params,
    ← Json.list? Instance.ofJson? instances, ← Span.ofJson? span⟩

end Instantiation

namespace Item

def toJson : Item → Json
  | .instantiation stmt => .tagged "Instantiation" stmt.toJson
  | .skipped leading span =>
    .tagged "Unsupported" (.object [("leading", leading.toJson), ("span", span.toJson)])
  | .error span => .tagged "Error" span.toJson

def ofJson? (j : Json) : Option Item := do
  match ← j.alternative? with
  | ("Instantiation", some content) => return .instantiation (← Instantiation.ofJson? content)
  | ("Unsupported", some content) =>
    let [leading, span] ← content.members? ["leading", "span"] | none
    return .skipped (← Span.ofJson? leading) (← Span.ofJson? span)
  | ("Error", some content) => return .error (← Span.ofJson? content)
  | _ => none

end Item

namespace DesignUnit

def toJson (u : DesignUnit) : Json :=
  .object [("kind", .string (wordName u.kind.text)), ("name", u.name.toJson),
    ("items", .ofList Item.toJson u.items),
    ("end_label", .ofOption Identifier.toJson u.endLabel), ("span", u.span.toJson)]

def ofJson? (j : Json) : Option DesignUnit := do
  let [kind, name, items, endLabel, span] ←
    j.record? ["kind", "name", "items", "end_label", "span"] | none
  return ⟨← Json.oneOf? UnitKind.all (wordName ·.text) kind, ← Identifier.ofJson? name,
    ← Json.list? Item.ofJson? items, ← Json.option? Identifier.ofJson? endLabel,
    ← Span.ofJson? span⟩

end DesignUnit

namespace SourceText

def toJson (t : SourceText) : Json :=
  .object [("modules", .ofList DesignUnit.toJson t.units), ("span", t.span.toJson)]

def ofJson? (j : Json) : Option SourceText := do
  let [units, span] ← j.record? ["modules", "span"] | none
  return ⟨← Json.list? DesignUnit.ofJson? units, ← Span.ofJson? span⟩

end SourceText

end Netlist.Syntax
