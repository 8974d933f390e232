import Netlist.Lowering.Module

/-!
Lowering of statements into an output they share. A statement puts its instances there when it is
done with all of them, so a fault on the way leaves the output to the statements before it.
-/
namespace Netlist.Lowering

/-- Lowering with an output, which outlasts a fault. -/
abbrev OutputM := ExceptT Fault (StateT (List Design.Instance) SessionM)

/-- A lowering that does not use the output. -/
def OutputM.lift {α : Type} (x : LowerM α) : OutputM α := ExceptT.mk (StateT.lift x.run)

/-- The generic map of the instance that comes after those in `done`, and what is left of the shared
one: the first instance takes it, and each later one has a copy of what the first has. -/
def nextGenerics (shared : List Design.Expr) (done : List Design.Instance) :
    List Design.Expr × List Design.Expr :=
  match done.head? with
  | none => (shared, [])
  | some first => (first.generics, shared)

/-- The instances in `done` and after them those of a statement about `module`. -/
def instancesAfter (ctx : Context) (module : Syntax.Identifier) (shared : List Design.Expr)
    (done : List Design.Instance) : List Syntax.Instance → LowerM (List Design.Instance)
  | [] => return done
  | i :: is => do
    let (generics, rest) := nextGenerics shared done
    let next ← hierarchicalInstance ctx module generics i
    instancesAfter ctx module rest (done ++ [next]) is

/-- Puts the instances of a statement behind what is in the output. -/
def append (ctx : Context) (stmt : Syntax.Instantiation) : OutputM Unit := do
  if stmt.instances.isEmpty then
    throw (.noInstances stmt.span)
  let shared ← OutputM.lift (generics ctx stmt.params)
  let instances ← OutputM.lift (instancesAfter ctx stmt.module shared [] stmt.instances)
  modify (· ++ instances)

/-- Lowers statements one after the other into one output; each has its own outcome. -/
def appendAll (ctx : Context) (stmts : List Syntax.Instantiation) :
    StateT (List Design.Instance) SessionM (List (Except Fault Unit)) :=
  stmts.mapM fun stmt => (append ctx stmt).run

end Netlist.Lowering
