import Netlist.Lowering.Expression

/-!
Lowering of parameter values, dimensions, and parameter and port lists. An ordered list gives plain
values, a named one associations; what is left out becomes the open value, and the wildcard has
every port as its key.
-/
namespace Netlist.Lowering

open Design (Expr)

def range (ctx : Context) (r : Syntax.Range) : LowerM Expr := do
  let msb ← expression ctx r.msb
  let lsb ← expression ctx r.lsb
  return .downto msb lsb

/-- Selects of `base` by the given ranges, from left to right. -/
def packed (ctx : Context) (base : Expr) : List Syntax.Range → LowerM Expr
  | [] => return base
  | r :: rs => do
    let bounds ← range ctx r
    packed ctx (.index base bounds) rs

/-- A data type is its keyword with a select for each packed dimension. Signing is left out. -/
def dataType (ctx : Context) (t : Syntax.DataType) : LowerM Expr := do
  if let some (_, span) := t.signing then
    notice ctx "signing of a data type parameter value" span
  let keyword ← intern t.kind.text
  packed ctx (.id keyword) t.packed

def paramValue (ctx : Context) : Syntax.ParamValue → LowerM Expr
  | .expr value => expression ctx value
  | .dataType type => dataType ctx type

def dimension (ctx : Context) : Syntax.Dimension → LowerM Expr
  | .range bounds => range ctx bounds
  | .size size _ => expression ctx size

/-- Selects of an instance name by the dimensions of its array, from left to right. -/
def dimensions (ctx : Context) (base : Expr) : List Syntax.Dimension → LowerM Expr
  | [] => return base
  | d :: ds => do
    let bounds ← dimension ctx d
    dimensions ctx (.index base bounds) ds

def optional {α : Type} (lower : α → LowerM Expr) : Option α → LowerM Expr
  | some a => lower a
  | none => return .null

def namedParam (ctx : Context) (p : Syntax.NamedParam) : LowerM Expr := do
  let key ← identifier p.name
  let value ← optional (paramValue ctx) p.value
  return .association key value

def paramList (ctx : Context) : Syntax.ParamList → LowerM (List Expr)
  | .ordered values => values.mapM (paramValue ctx)
  | .named items => items.mapM (namedParam ctx)

/-- Attributes are left out. -/
def attributes (ctx : Context) (form : String) : List Syntax.Attribute → SessionM Unit
  | [] => return
  | a :: rest => do
    notice ctx ("attribute instance on " ++ form ++ " port connection") a.span
    attributes ctx form rest

def orderedPort (ctx : Context) (p : Syntax.OrderedPort) : LowerM Expr := do
  attributes ctx "ordered" p.attributes
  optional (expression ctx) p.expr

def namedPort (ctx : Context) (p : Syntax.NamedPort) : LowerM Expr := do
  attributes ctx "named" p.attributes
  match p.target with
  | .wildcard => return .association .all .null
  | .port name actual =>
    let key ← identifier name
    let value ← optional (expression ctx) actual
    return .association key value

def portList (ctx : Context) : Syntax.PortList → LowerM (List Expr)
  | .ordered ports => ports.mapM (orderedPort ctx)
  | .named ports => ports.mapM (namedPort ctx)

end Netlist.Lowering
