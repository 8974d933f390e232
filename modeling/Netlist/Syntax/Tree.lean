import Netlist.Operator
import Netlist.Source.Span

/-!
Syntax trees of source files: design units whose bodies are instantiation statements. Each node
carries its span. Literal values are not kept: they are read again from the source text. Where the
source is broken a node says so, so that the rest of the tree can be used.
-/
namespace Netlist.Syntax

/-- An occurrence of a name. The backslash of an escaped one belongs to it. -/
structure Identifier where
  name : Nat
  span : Span
  deriving DecidableEq

inductive Expr where
  | identifier (name : Identifier)
  /-- Names joined by dots. -/
  | hierarchical (parts : List Identifier) (span : Span)
  /-- A name inside a package or class. -/
  | scoped (scope name : Identifier) (span : Span)
  | literal (span : Span)
  | realLiteral (span : Span)
  | stringLiteral (span : Span)
  | index (base index : Expr) (span : Span)
  | rangeSelect (base msb lsb : Expr) (span : Span)
  /-- A part select of `width` bits, up or down from `index`. -/
  | partSelect (base index : Expr) (ascending : Bool) (width : Expr) (span : Span)
  | concat (elements : List Expr) (span : Span)
  | replicate (count : Expr) (elements : List Expr) (span : Span)
  | unary (op : UnaryOp) (operand : Expr) (span : Span)
  | binary (left : Expr) (op : BinaryOp) (right : Expr) (span : Span)
  | ternary (condition thenExpr elseExpr : Expr) (span : Span)
  | call (callee : Expr) (args : List Expr) (span : Span)
  /-- A call of a system function; the dollar sign belongs to the name. -/
  | systemCall (name : Identifier) (args : List Expr) (span : Span)
  | paren (inner : Expr) (span : Span)
  /-- Something that is no expression. -/
  | error (span : Span)

def Expr.span : Expr → Span
  | .identifier name => name.span
  | .hierarchical _ span => span
  | .scoped _ _ span => span
  | .literal span => span
  | .realLiteral span => span
  | .stringLiteral span => span
  | .index _ _ span => span
  | .rangeSelect _ _ _ span => span
  | .partSelect _ _ _ _ span => span
  | .concat _ span => span
  | .replicate _ _ span => span
  | .unary _ _ span => span
  | .binary _ _ _ span => span
  | .ternary _ _ _ span => span
  | .call _ _ span => span
  | .systemCall _ _ span => span
  | .paren _ span => span
  | .error span => span

/-- Bounds in brackets. -/
structure Range where
  msb : Expr
  lsb : Expr
  span : Span

/-- A built-in type given as a parameter value. -/
structure DataType where
  kind : BuiltinType
  signing : Option (Signing × Span)
  packed : List Range
  span : Span

inductive ParamValue where
  | expr (value : Expr)
  | dataType (type : DataType)

def ParamValue.span : ParamValue → Span
  | .expr value => value.span
  | .dataType type => type.span

structure NamedParam where
  name : Identifier
  /-- Nothing if the parentheses are empty. -/
  value : Option ParamValue
  span : Span

/-- A parameter list is all ordered or all named. -/
inductive ParamList where
  | ordered (values : List ParamValue)
  | named (items : List NamedParam)

/-- The part of an instantiation that begins with `#`. -/
structure ParamClause where
  /-- Nothing if the parentheses are empty. -/
  list : Option ParamList
  span : Span

inductive Dimension where
  | range (range : Range)
  | size (size : Expr) (span : Span)

structure InstanceName where
  name : Identifier
  dimensions : List Dimension
  span : Span

structure AttributeSpec where
  name : Identifier
  value : Option Expr
  span : Span

structure Attribute where
  specs : List AttributeSpec
  span : Span

structure OrderedPort where
  attributes : List Attribute
  /-- Nothing for a blank. -/
  expr : Option Expr
  span : Span

inductive PortTarget where
  | wildcard
  | port (name : Identifier) (actual : Option Expr)

structure NamedPort where
  attributes : List Attribute
  target : PortTarget
  span : Span

/-- A port list is all ordered or all named. -/
inductive PortList where
  | ordered (ports : List OrderedPort)
  | named (ports : List NamedPort)

structure Instance where
  name : InstanceName
  connections : PortList
  span : Span

structure Instantiation where
  module : Identifier
  params : Option ParamClause
  instances : List Instance
  span : Span

inductive Item where
  | instantiation (stmt : Instantiation)
  /-- An item of another kind, passed over; `leading` is its first token. -/
  | skipped (leading span : Span)
  | error (span : Span)

structure DesignUnit where
  kind : UnitKind
  name : Identifier
  items : List Item
  endLabel : Option Identifier
  span : Span

structure SourceText where
  units : List DesignUnit
  span : Span

end Netlist.Syntax
