import Netlist.Lowering.Association

/-!
Lowering of statements and units. A statement gives one instance per name, all with the same
generic map, or none at all if it has a fault; in a unit the fault is reported and the next
statement follows.
-/
namespace Netlist.Lowering

/-- The generic map of a parameter clause. -/
def generics (ctx : Context) : Option Syntax.ParamClause → LowerM (List Design.Expr)
  | some ⟨some list, _⟩ => paramList ctx list
  | _ => return []

/-- One instance of a statement about `module`. -/
def hierarchicalInstance (ctx : Context) (module : Syntax.Identifier)
    (generics : List Design.Expr) (i : Syntax.Instance) : LowerM Design.Instance := do
  let ports ← portList ctx i.connections
  let base ← identifier i.name.name
  let name ← dimensions ctx base i.name.dimensions
  let moduleName ← identifier module
  return ⟨name, moduleName, generics, ports, i.span⟩

/-- The instances of a statement. -/
def instantiation (ctx : Context) (stmt : Syntax.Instantiation) :
    LowerM (List Design.Instance) := do
  if stmt.instances.isEmpty then
    fail (.noInstances stmt.span)
  let shared ← generics ctx stmt.params
  stmt.instances.mapM (hierarchicalInstance ctx stmt.module shared)

/-- Reports a fault in place of the instances that would have been there. -/
def reportingFaults (lower : LowerM (List Design.Instance)) : SessionM (List Design.Instance) := do
  match ← lower.run with
  | .ok instances => return instances
  | .error f =>
    emit f.diagnostic
    return []

def item (ctx : Context) : Syntax.Item → LowerM (List Design.Instance)
  | .instantiation stmt => instantiation ctx stmt
  | .skipped leading span => do
    let text ← snippet ctx leading
    notice ctx ("module item `" ++ text ++ "`") span
    return []
  | .error span => fail (.malformed .moduleItem span)

def designUnit (ctx : Context) (u : Syntax.DesignUnit) : SessionM Design.Module := do
  let instances ← u.items.mapM fun i => reportingFaults (item ctx i)
  let name ← identifier u.name
  return ⟨name, instances.flatten, u.span⟩

def sourceText (ctx : Context) (t : Syntax.SourceText) : SessionM (List Design.Module) :=
  t.units.mapM (designUnit ctx)

end Netlist.Lowering
