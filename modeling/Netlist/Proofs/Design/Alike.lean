import Netlist.Design.Tree
import Mathlib.Data.List.Forall2

/-!
Design trees that are alike: equal but for the indices of names, which correspond, and for the spans
of instances and modules. Over a relation that holds of known names only, a tree that is like itself
has no other names.
-/
namespace Netlist.Design

open List (Forall₂)

inductive Expr.Alike (N : Nat → Nat → Prop) : Expr → Expr → Prop
  | id {i j : Nat} : N i j → Alike N (.id i) (.id j)
  | literal (value : Literal) : Alike N (.literal value) (.literal value)
  | all : Alike N .all .all
  | null : Alike N .null .null
  | unary {op : UnaryOp} {a a' : Expr} : Alike N a a' → Alike N (.unary op a) (.unary op a')
  | binary {joint : Joint} {a a' b b' : Expr} :
      Alike N a a' → Alike N b b' → Alike N (.binary joint a b) (.binary joint a' b')
  | ternary {a a' b b' c c' : Expr} :
      Alike N a a' → Alike N b b' → Alike N c c' → Alike N (.ternary a b c) (.ternary a' b' c')
  | call {f f' : Expr} {as as' : List Expr} :
      Alike N f f' → Forall₂ (Alike N) as as' → Alike N (.call f as) (.call f' as')
  | concat {as as' : List Expr} :
      Forall₂ (Alike N) as as' → Alike N (.concat as) (.concat as')
  | replicate {n n' : Expr} {as as' : List Expr} :
      Alike N n n' → Forall₂ (Alike N) as as' → Alike N (.replicate n as) (.replicate n' as')

structure Instance.Alike (N : Nat → Nat → Prop) (S : Span → Span → Prop) (i i' : Instance) :
    Prop where
  name : i.name.Alike N i'.name
  module : i.module.Alike N i'.module
  generics : Forall₂ (Expr.Alike N) i.generics i'.generics
  ports : Forall₂ (Expr.Alike N) i.ports i'.ports
  span : S i.span i'.span

structure Module.Alike (N : Nat → Nat → Prop) (S : Span → Span → Prop) (m m' : Module) :
    Prop where
  name : m.name.Alike N m'.name
  instances : Forall₂ (Instance.Alike N S) m.instances m'.instances
  span : S m.span m'.span

end Netlist.Design
