import Netlist.Syntax.Tree

/-!
The number literals that a statement gives a value to: those in its parameter values, its port
connections and the dimensions of its instances, in source order. Literals in attributes are not
among them.
-/
namespace Netlist.Syntax

mutual

/-- The spans of the number literals of an expression. -/
def Expr.numbers : Expr → List Span
  | .identifier _ => []
  | .hierarchical _ _ => []
  | .scoped _ _ _ => []
  | .literal span => [span]
  | .realLiteral _ => []
  | .stringLiteral _ => []
  | .index base place _ => base.numbers ++ place.numbers
  | .rangeSelect base msb lsb _ => base.numbers ++ (msb.numbers ++ lsb.numbers)
  | .partSelect base place _ width _ => base.numbers ++ (place.numbers ++ width.numbers)
  | .concat elements _ => Expr.numbersOf elements
  | .replicate count elements _ => count.numbers ++ Expr.numbersOf elements
  | .unary _ operand _ => operand.numbers
  | .binary left _ right _ => left.numbers ++ right.numbers
  | .ternary condition thenExpr elseExpr _ =>
    condition.numbers ++ (thenExpr.numbers ++ elseExpr.numbers)
  | .call callee args _ => callee.numbers ++ Expr.numbersOf args
  | .systemCall _ args _ => Expr.numbersOf args
  | .paren inner _ => inner.numbers
  | .error _ => []

def Expr.numbersOf : List Expr → List Span
  | [] => []
  | e :: es => e.numbers ++ Expr.numbersOf es

end

def Range.numbers (r : Range) : List Span := r.msb.numbers ++ r.lsb.numbers

def ParamValue.numbers : ParamValue → List Span
  | .expr value => value.numbers
  | .dataType type => type.packed.flatMap Range.numbers

def NamedParam.numbers (p : NamedParam) : List Span := p.value.toList.flatMap ParamValue.numbers

def ParamList.numbers : ParamList → List Span
  | .ordered values => values.flatMap ParamValue.numbers
  | .named items => items.flatMap NamedParam.numbers

def ParamClause.numbers (p : ParamClause) : List Span := p.list.toList.flatMap ParamList.numbers

def Dimension.numbers : Dimension → List Span
  | .range bounds => bounds.numbers
  | .size count _ => count.numbers

def OrderedPort.numbers (p : OrderedPort) : List Span := p.expr.toList.flatMap Expr.numbers

def NamedPort.numbers (p : NamedPort) : List Span :=
  match p.target with
  | .wildcard => []
  | .port _ actual => actual.toList.flatMap Expr.numbers

def PortList.numbers : PortList → List Span
  | .ordered ports => ports.flatMap OrderedPort.numbers
  | .named ports => ports.flatMap NamedPort.numbers

def Instance.numbers (i : Instance) : List Span :=
  i.connections.numbers ++ i.name.dimensions.flatMap Dimension.numbers

def Instantiation.numbers (s : Instantiation) : List Span :=
  s.params.toList.flatMap ParamClause.numbers ++ s.instances.flatMap Instance.numbers

def Item.numbers : Item → List Span
  | .instantiation stmt => stmt.numbers
  | .skipped _ _ => []
  | .error _ => []

/-- The instances an item asks for. -/
def Item.instances : Item → List Instance
  | .instantiation stmt => stmt.instances
  | .skipped _ _ => []
  | .error _ => []

end Netlist.Syntax
