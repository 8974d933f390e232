import Netlist.Token.Kind

/-!
The operators of expressions: their signs, their names, the tokens they are written with, and how
tightly they bind. An infix operator has a power on each side; an operand between two operators
goes to the side with the greater power.
-/
namespace Netlist

inductive UnaryOp where
  | plus
  | minus
  | logNot
  | bitNot
  | redAnd
  | redNand
  | redOr
  | redNor
  | redXor
  | redXnor
  deriving DecidableEq

namespace UnaryOp

def all : List UnaryOp :=
  [.plus, .minus, .logNot, .bitNot, .redAnd, .redNand, .redOr, .redNor, .redXor, .redXnor]

def sign : UnaryOp → String
  | .plus => "+"
  | .minus => "-"
  | .logNot => "!"
  | .bitNot => "~"
  | .redAnd => "&"
  | .redNand => "~&"
  | .redOr => "|"
  | .redNor => "~|"
  | .redXor => "^"
  | .redXnor => "~^"

def name : UnaryOp → String
  | .plus => "Plus"
  | .minus => "Minus"
  | .logNot => "LogNot"
  | .bitNot => "BitNot"
  | .redAnd => "RedAnd"
  | .redNand => "RedNand"
  | .redOr => "RedOr"
  | .redNor => "RedNor"
  | .redXor => "RedXor"
  | .redXnor => "RedXnor"

/-- The token of an operator. -/
def kind : UnaryOp → Kind
  | .plus => .plus
  | .minus => .minus
  | .logNot => .bang
  | .bitNot => .tilde
  | .redAnd => .ampersand
  | .redNand => .tildeAmpersand
  | .redOr => .pipe
  | .redNor => .tildePipe
  | .redXor => .caret
  | .redXnor => .tildeCaret

/-- Tighter than every infix operator. -/
def power : Nat := 23

end UnaryOp

inductive BinaryOp where
  | add
  | sub
  | mul
  | div
  | mod
  | pow
  | eq
  | neq
  | caseEq
  | caseNeq
  | wildEq
  | wildNeq
  | lt
  | le
  | gt
  | ge
  | logAnd
  | logOr
  | bitAnd
  | bitOr
  | bitXor
  | bitXnor
  | shl
  | shr
  | ashl
  | ashr
  deriving DecidableEq

namespace BinaryOp

def all : List BinaryOp :=
  [.add, .sub, .mul, .div, .mod, .pow, .eq, .neq, .caseEq, .caseNeq, .wildEq, .wildNeq, .lt, .le,
   .gt, .ge, .logAnd, .logOr, .bitAnd, .bitOr, .bitXor, .bitXnor, .shl, .shr, .ashl, .ashr]

def sign : BinaryOp → String
  | .add => "+"
  | .sub => "-"
  | .mul => "*"
  | .div => "/"
  | .mod => "%"
  | .pow => "**"
  | .eq => "=="
  | .neq => "!="
  | .caseEq => "==="
  | .caseNeq => "!=="
  | .wildEq => "==?"
  | .wildNeq => "!=?"
  | .lt => "<"
  | .le => "<="
  | .gt => ">"
  | .ge => ">="
  | .logAnd => "&&"
  | .logOr => "||"
  | .bitAnd => "&"
  | .bitOr => "|"
  | .bitXor => "^"
  | .bitXnor => "~^"
  | .shl => "<<"
  | .shr => ">>"
  | .ashl => "<<<"
  | .ashr => ">>>"

def name : BinaryOp → String
  | .add => "Add"
  | .sub => "Sub"
  | .mul => "Mul"
  | .div => "Div"
  | .mod => "Mod"
  | .pow => "Pow"
  | .eq => "Eq"
  | .neq => "Neq"
  | .caseEq => "CaseEq"
  | .caseNeq => "CaseNeq"
  | .wildEq => "WildEq"
  | .wildNeq => "WildNeq"
  | .lt => "Lt"
  | .le => "Le"
  | .gt => "Gt"
  | .ge => "Ge"
  | .logAnd => "LogAnd"
  | .logOr => "LogOr"
  | .bitAnd => "BitAnd"
  | .bitOr => "BitOr"
  | .bitXor => "BitXor"
  | .bitXnor => "BitXnor"
  | .shl => "Shl"
  | .shr => "Shr"
  | .ashl => "AShl"
  | .ashr => "AShr"

/-- The token of an operator. -/
def kind : BinaryOp → Kind
  | .add => .plus
  | .sub => .minus
  | .mul => .star
  | .div => .slash
  | .mod => .percent
  | .pow => .doubleStar
  | .eq => .doubleEquals
  | .neq => .bangEquals
  | .caseEq => .tripleEquals
  | .caseNeq => .bangDoubleEquals
  | .wildEq => .wildcardEq
  | .wildNeq => .wildcardNeq
  | .lt => .lessThan
  | .le => .lessEquals
  | .gt => .greaterThan
  | .ge => .greaterEquals
  | .logAnd => .doubleAmpersand
  | .logOr => .doublePipe
  | .bitAnd => .ampersand
  | .bitOr => .pipe
  | .bitXor => .caret
  | .bitXnor => .tildeCaret
  | .shl => .doubleLess
  | .shr => .doubleGreater
  | .ashl => .tripleLess
  | .ashr => .tripleGreater

/-- The level of an operator, looser ones first. -/
def level : BinaryOp → Nat
  | .logOr => 0
  | .logAnd => 1
  | .bitOr => 2
  | .bitXor => 3
  | .bitXnor => 3
  | .bitAnd => 4
  | .eq => 5
  | .neq => 5
  | .caseEq => 5
  | .caseNeq => 5
  | .wildEq => 5
  | .wildNeq => 5
  | .lt => 6
  | .le => 6
  | .gt => 6
  | .ge => 6
  | .shl => 7
  | .shr => 7
  | .ashl => 7
  | .ashr => 7
  | .add => 8
  | .sub => 8
  | .mul => 9
  | .div => 9
  | .mod => 9
  | .pow => 10

/-- Power towards the left operand. -/
def leftPower (op : BinaryOp) : Nat := if op = .pow then 22 else 2 * op.level + 1

/-- Power towards the right operand. It is the greater one, so equal operators group to the left,
except for powers, which group to the right. -/
def rightPower (op : BinaryOp) : Nat := if op = .pow then 21 else 2 * op.level + 2

end BinaryOp

namespace Kind

/-- The operator a token stands for before an operand. -/
def unaryOp? (k : Kind) : Option UnaryOp := UnaryOp.all.find? (·.kind == k)

/-- The operator a token stands for between operands. -/
def binaryOp? (k : Kind) : Option BinaryOp := BinaryOp.all.find? (·.kind == k)

theorem unaryOp?_kind (op : UnaryOp) : op.kind.unaryOp? = some op := by
  cases op <;> decide

theorem binaryOp?_kind (op : BinaryOp) : op.kind.binaryOp? = some op := by
  cases op <;> decide

theorem kind_of_unaryOp? {k : Kind} {op : UnaryOp} (h : k.unaryOp? = some op) : op.kind = k := by
  simpa using List.find?_some h

theorem kind_of_binaryOp? {k : Kind} {op : BinaryOp} (h : k.binaryOp? = some op) : op.kind = k := by
  simpa using List.find?_some h

end Kind

end Netlist
