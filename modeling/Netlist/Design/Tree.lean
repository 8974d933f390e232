import Netlist.Operator
import Netlist.Source.Span

/-!
Design trees: the instances of each module, with expressions that do not depend on the source
language. A generic map or port map holds plain values, bound by position, or associations of a key
with a value, bound by name.
-/
namespace Netlist.Design

inductive Radix where
  | binary
  | octal
  | decimal
  | hex
  deriving DecidableEq

inductive Literal where
  /-- A decimal number of at most 64 bits. -/
  | int (value : Nat)
  /-- A number with a base; digits are in lower case and without separators. -/
  | based (width : Option Nat) (signed : Bool) (radix : Radix) (digits : String)
  /-- A value that fills whatever width is needed. -/
  | fill (digit : Char)
  /-- A real number, as written but without separators. -/
  | real (text : String)
  | str (text : String)
  deriving DecidableEq

/-- What joins two expressions: an operator, or one of the forms that have none. -/
inductive Joint where
  | operator (op : BinaryOp)
  | index
  | downto
  | partSelectUp
  | partSelectDown
  | dot
  | scope
  /-- A key with its value in a generic or port map. -/
  | association
  deriving DecidableEq

inductive Expr where
  | id (name : Nat)
  | literal (value : Literal)
  /-- Every port, as the key of an association. -/
  | all
  /-- Left open. -/
  | null
  | unary (op : UnaryOp) (operand : Expr)
  | binary (joint : Joint) (left right : Expr)
  | ternary (cond ifTrue ifFalse : Expr)
  | call (callee : Expr) (args : List Expr)
  | concat (elements : List Expr)
  | replicate (count : Expr) (elements : List Expr)

namespace Expr

mutual

/-- Whether two trees agree node by node. -/
def same : Expr → Expr → Bool
  | .id a, .id b => a == b
  | .literal a, .literal b => a == b
  | .all, .all => true
  | .null, .null => true
  | .unary op a, .unary op' a' => op == op' && same a a'
  | .binary joint a b, .binary joint' a' b' => joint == joint' && same a a' && same b b'
  | .ternary a b c, .ternary a' b' c' => same a a' && same b b' && same c c'
  | .call a as, .call a' as' => same a a' && sameAll as as'
  | .concat as, .concat as' => sameAll as as'
  | .replicate a as, .replicate a' as' => same a a' && sameAll as as'
  | _, _ => false

def sameAll : List Expr → List Expr → Bool
  | [], [] => true
  | a :: as, b :: bs => same a b && sameAll as bs
  | _, _ => false

end

mutual

theorem same_iff : (a b : Expr) → (same a b = true ↔ a = b)
  | .id _, b => by cases b <;> simp [same]
  | .literal _, b => by cases b <;> simp [same]
  | .all, b => by cases b <;> simp [same]
  | .null, b => by cases b <;> simp [same]
  | .unary _ x, b => by cases b <;> simp [same, same_iff x]
  | .binary _ x y, b => by cases b <;> simp [same, same_iff x, same_iff y, and_assoc]
  | .ternary x y z, b => by
    cases b <;> simp [same, same_iff x, same_iff y, same_iff z, and_assoc]
  | .call x xs, b => by cases b <;> simp [same, same_iff x, sameAll_iff xs]
  | .concat xs, b => by cases b <;> simp [same, sameAll_iff xs]
  | .replicate x xs, b => by cases b <;> simp [same, same_iff x, sameAll_iff xs]

theorem sameAll_iff : (as bs : List Expr) → (sameAll as bs = true ↔ as = bs)
  | [], bs => by cases bs <;> simp [sameAll]
  | x :: xs, bs => by cases bs <;> simp [sameAll, same_iff x, sameAll_iff xs]

end

instance : DecidableEq Expr := fun a b => decidable_of_iff _ (same_iff a b)

/-- The select `base[index]`. -/
def index (base index : Expr) : Expr := .binary .index base index

/-- The range from `msb` down to `lsb`. -/
def downto (msb lsb : Expr) : Expr := .binary .downto msb lsb

/-- A key bound to a value. -/
def association (key value : Expr) : Expr := .binary .association key value

/-- The key and the value of an association. -/
def association? : Expr → Option (Expr × Expr)
  | .binary .association key value => some (key, value)
  | _ => none

def isAssociation (e : Expr) : Bool := e.association?.isSome

def id? : Expr → Option Nat
  | .id name => some name
  | _ => none

/-- The name that selects are applied to, if it is one. -/
def baseName? : Expr → Option Nat
  | .binary .index base _ => base.baseName?
  | e => e.id?

mutual

/-- The number of nodes, the root included. -/
def nodeCount : Expr → Nat
  | .id _ => 1
  | .literal _ => 1
  | .all => 1
  | .null => 1
  | .unary _ operand => 1 + nodeCount operand
  | .binary _ left right => 1 + (nodeCount left + nodeCount right)
  | .ternary cond ifTrue ifFalse => 1 + (nodeCount cond + nodeCount ifTrue + nodeCount ifFalse)
  | .call callee args => 1 + (nodeCount callee + nodeCounts args)
  | .concat elements => 1 + nodeCounts elements
  | .replicate count elements => 1 + (nodeCount count + nodeCounts elements)

def nodeCounts : List Expr → Nat
  | [] => 0
  | e :: es => nodeCount e + nodeCounts es

end

end Expr

/-- How the entries of a generic or port map are bound. -/
inductive Style where
  | empty
  | positional
  | named
  /-- Some by position and some by name. -/
  | mixed
  deriving DecidableEq

namespace Style

def of (map : List Expr) : Style :=
  if map.isEmpty then .empty
  else if map.all (·.isAssociation) then .named
  else if map.any (·.isAssociation) then .mixed
  else .positional

def name : Style → String
  | .empty => "Empty"
  | .positional => "Positional"
  | .named => "Named"
  | .mixed => "Mixed"

end Style

/-- An instance of a module. -/
structure Instance where
  /-- The name, with a select for each dimension of an array of instances. -/
  name : Expr
  module : Expr
  generics : List Expr
  ports : List Expr
  span : Span
  deriving DecidableEq

structure Module where
  name : Expr
  instances : List Instance
  span : Span
  deriving DecidableEq

end Netlist.Design
