import Netlist.Design.Tree
import Netlist.Source.Json

/-!
Design trees in JSON.
-/
namespace Netlist.Design

namespace Radix

def all : List Radix := [.binary, .octal, .decimal, .hex]

def name : Radix → String
  | .binary => "Binary"
  | .octal => "Octal"
  | .decimal => "Decimal"
  | .hex => "Hex"

def ofJson? : Json → Option Radix := Json.oneOf? all name

end Radix

namespace Literal

def toJson : Literal → Json
  | .int value => .tagged "Int" (.ofNat value)
  | .based width signed radix digits =>
    .tagged "Based" (.object [("width", .ofOption .ofNat width), ("signed", .bool signed),
      ("radix", .string radix.name), ("digits", .string digits)])
  | .fill digit => .tagged "UnbasedUnsized" (.string digit.toString)
  | .real text => .tagged "Real" (.string text)
  | .str text => .tagged "Str" (.string text)

def ofJson? (j : Json) : Option Literal := do
  let (name, some content) ← j.alternative? | none
  match name with
  | "Int" => return .int (← content.wideWord?)
  | "Based" =>
    let [width, signed, radix, digits] ←
      content.members? ["width", "signed", "radix", "digits"] | none
    return .based (← Json.option? Json.word? width) (← signed.bool?) (← Radix.ofJson? radix)
      (← digits.string?)
  | "UnbasedUnsized" => return .fill (← content.char?)
  | "Real" => return .real (← content.string?)
  | "Str" => return .str (← content.string?)
  | _ => none

end Literal

namespace Joint

def all : List Joint :=
  BinaryOp.all.map .operator ++
    [.index, .downto, .partSelectUp, .partSelectDown, .dot, .scope, .association]

def name : Joint → String
  | .operator op => op.name
  | .index => "Index"
  | .downto => "Downto"
  | .partSelectUp => "PartSelectUp"
  | .partSelectDown => "PartSelectDown"
  | .dot => "Dot"
  | .scope => "Scope"
  | .association => "MapAssociation"

def ofJson? : Json → Option Joint := Json.oneOf? all name

end Joint

namespace Expr

mutual

def toJson : Expr → Json
  | .id name => .tagged "Id" (.ofNat name)
  | .literal value => .tagged "Literal" value.toJson
  | .all => .string "All"
  | .null => .string "Null"
  | .unary op operand =>
    .tagged "Unary" (.object [("op", .string op.name), ("operand", toJson operand)])
  | .binary joint left right =>
    .tagged "Binary" (.object [("op", .string joint.name), ("left", toJson left),
      ("right", toJson right)])
  | .ternary cond ifTrue ifFalse =>
    .tagged "Ternary" (.object [("cond", toJson cond), ("if_true", toJson ifTrue),
      ("if_false", toJson ifFalse)])
  | .call callee args =>
    .tagged "Call" (.object [("callee", toJson callee), ("args", .array (listToJson args))])
  | .concat elements => .tagged "Concat" (.array (listToJson elements))
  | .replicate count elements =>
    .tagged "Replicate" (.object [("count", toJson count),
      ("elements", .array (listToJson elements))])

def listToJson : List Expr → List Json
  | [] => []
  | e :: es => toJson e :: listToJson es

end

/-- Reads an expression nested at most `bound` deep. -/
def ofJsonWithin? : (bound : Nat) → Json → Option Expr
  | 0, _ => none
  | bound + 1, j => do
    match ← j.alternative? with
    | ("All", none) => return .all
    | ("All", some .null) => return .all
    | ("Null", none) => return .null
    | ("Null", some .null) => return .null
    | ("Id", some content) => return .id (← content.word?)
    | ("Literal", some content) => return .literal (← Literal.ofJson? content)
    | ("Unary", some content) =>
      let [op, operand] ← content.members? ["op", "operand"] | none
      return .unary (← Json.oneOf? UnaryOp.all UnaryOp.name op) (← ofJsonWithin? bound operand)
    | ("Binary", some content) =>
      let [joint, left, right] ← content.members? ["op", "left", "right"] | none
      return .binary (← Joint.ofJson? joint) (← ofJsonWithin? bound left)
        (← ofJsonWithin? bound right)
    | ("Ternary", some content) =>
      let [cond, ifTrue, ifFalse] ← content.members? ["cond", "if_true", "if_false"] | none
      return .ternary (← ofJsonWithin? bound cond) (← ofJsonWithin? bound ifTrue)
        (← ofJsonWithin? bound ifFalse)
    | ("Call", some content) =>
      let [callee, args] ← content.members? ["callee", "args"] | none
      return .call (← ofJsonWithin? bound callee) (← Json.list? (ofJsonWithin? bound) args)
    | ("Concat", some content) => return .concat (← Json.list? (ofJsonWithin? bound) content)
    | ("Replicate", some content) =>
      let [count, elements] ← content.members? ["count", "elements"] | none
      return .replicate (← ofJsonWithin? bound count)
        (← Json.list? (ofJsonWithin? bound) elements)
    | _ => none

/-- Reads an expression; it is nested no deeper than the value it is read from. -/
def ofJson? (j : Json) : Option Expr := ofJsonWithin? j.depth j

end Expr

namespace Instance

def toJson (i : Instance) : Json :=
  .object [("name", i.name.toJson), ("module_id", i.module.toJson),
    ("generic_map", .array (Expr.listToJson i.generics)),
    ("port_map", .array (Expr.listToJson i.ports)), ("span", i.span.toJson)]

def ofJson? (j : Json) : Option Instance := do
  let [name, module, generics, ports, span] ←
    j.record? ["name", "module_id", "generic_map", "port_map", "span"] | none
  return ⟨← Expr.ofJson? name, ← Expr.ofJson? module, ← Json.list? Expr.ofJson? generics,
    ← Json.list? Expr.ofJson? ports, ← Span.ofJson? span⟩

end Instance

namespace Module

def toJson (m : Module) : Json :=
  .object [("name", m.name.toJson), ("instances", .ofList Instance.toJson m.instances),
    ("span", m.span.toJson)]

def ofJson? (j : Json) : Option Module := do
  let [name, instances, span] ← j.record? ["name", "instances", "span"] | none
  return ⟨← Expr.ofJson? name, ← Json.list? Instance.ofJson? instances, ← Span.ofJson? span⟩

end Module

end Netlist.Design
