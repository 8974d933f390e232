import Netlist.Lowering.Basic
import Netlist.Lowering.Number
import Netlist.Lowering.StringValue

/-!
Lowering of expressions. Parentheses go, dotted names become chains of members, and each select
becomes an index whose right side tells its form. Parts are lowered from left to right, so the
first fault in source order wins.
-/
namespace Netlist.Lowering

open Design (Expr Joint)

def numberLiteral (ctx : Context) (span : Span) : LowerM Expr := do
  match number? (← snippet ctx span).toList with
  | some value => return .literal value
  | none => fail (.malformed .numberLiteral span)

def realLiteral (ctx : Context) (span : Span) : SessionM Expr := do
  return .literal (.real (String.ofList (withoutSeparators (← snippet ctx span).toList)))

def stringLiteral (ctx : Context) (span : Span) : SessionM Expr := do
  return .literal (.str (String.ofList (stringValue (← snippet ctx span).toList)))

/-- The members named in order, beginning with one of `base`. -/
def members (base : Expr) : List Syntax.Identifier → SessionM Expr
  | [] => return base
  | part :: parts => do
    let name ← identifier part
    members (.binary .dot base name) parts

mutual

def expression (ctx : Context) : Syntax.Expr → LowerM Expr
  | .identifier name => identifier name
  | .hierarchical [] span => fail (.malformed .hierarchicalName span)
  | .hierarchical (first :: parts) _ => do
    let base ← identifier first
    members base parts
  | .scoped scope name _ => do
    let outer ← identifier scope
    let inner ← identifier name
    return .binary .scope outer inner
  | .literal span => numberLiteral ctx span
  | .realLiteral span => realLiteral ctx span
  | .stringLiteral span => stringLiteral ctx span
  | .index base index _ => do
    let b ← expression ctx base
    let i ← expression ctx index
    return .index b i
  | .rangeSelect base msb lsb _ => do
    let b ← expression ctx base
    let m ← expression ctx msb
    let l ← expression ctx lsb
    return .index b (.downto m l)
  | .partSelect base index ascending width _ => do
    let b ← expression ctx base
    let i ← expression ctx index
    let w ← expression ctx width
    return .index b (.binary (if ascending then .partSelectUp else .partSelectDown) i w)
  | .concat elements _ => do
    let es ← expressions ctx elements
    return .concat es
  | .replicate count elements _ => do
    let n ← expression ctx count
    let es ← expressions ctx elements
    return .replicate n es
  | .unary op operand _ => do
    let e ← expression ctx operand
    return .unary op e
  | .binary left op right _ => do
    let l ← expression ctx left
    let r ← expression ctx right
    return .binary (.operator op) l r
  | .ternary condition thenExpr elseExpr _ => do
    let c ← expression ctx condition
    let t ← expression ctx thenExpr
    let e ← expression ctx elseExpr
    return .ternary c t e
  | .call callee args _ => do
    let f ← expression ctx callee
    let es ← expressions ctx args
    return .call f es
  | .systemCall name args _ => do
    let es ← expressions ctx args
    return .call (.id name.name) es
  | .paren inner _ => expression ctx inner
  | .error span => fail (.malformed .expression span)

def expressions (ctx : Context) : List Syntax.Expr → LowerM (List Expr)
  | [] => return []
  | e :: es => do
    let first ← expression ctx e
    let rest ← expressions ctx es
    return first :: rest

end

end Netlist.Lowering
