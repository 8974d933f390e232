import Netlist.Design.Tree
import Netlist.Names
import Netlist.Text.Quoted

/-!
The text of design trees. Operators stand between parentheses, selects and ranges are written as in
source text, and associations as `MAP` of a key and a value.
-/
namespace Netlist.Design

def Radix.letter : Radix → String
  | .binary => "b"
  | .octal => "o"
  | .decimal => "d"
  | .hex => "h"

def Literal.text : Literal → String
  | .int value => toString value
  | .based width signed radix digits =>
    (match width with
      | some w => toString w
      | none => "") ++ "'" ++ (if signed then "s" else "") ++ radix.letter ++ digits
  | .fill digit => "'" ++ digit.toString
  | .real text => text
  | .str text => Text.quoted text

/-- What stands before, between and behind two joined expressions. -/
def Joint.marks : Joint → String × String × String
  | .operator op => ("(", " " ++ op.sign ++ " ", ")")
  | .index => ("", "[", "]")
  | .downto => ("", ":", "")
  | .partSelectUp => ("", "+:", "")
  | .partSelectDown => ("", "-:", "")
  | .dot => ("", ".", "")
  | .scope => ("", "::", "")
  | .association => ("MAP(", ", ", ")")

namespace Expr

mutual

/-- The text of an expression whose names are looked up in `names`. -/
def text (names : Names) : Expr → Except Misuse String
  | .id name => names.resolve name
  | .literal value => return value.text
  | .all => return "*"
  | .null => return "null"
  | .unary op operand => do
    let inner ← text names operand
    return "(" ++ op.sign ++ inner ++ ")"
  | .binary joint left right => do
    let (before, between, behind) := joint.marks
    let first ← text names left
    let second ← text names right
    return before ++ first ++ between ++ second ++ behind
  | .ternary cond ifTrue ifFalse => do
    let condition ← text names cond
    let first ← text names ifTrue
    let second ← text names ifFalse
    return "(" ++ condition ++ " ? " ++ first ++ " : " ++ second ++ ")"
  | .call callee args => do
    let name ← text names callee
    let list ← texts names args
    return name ++ "(" ++ ", ".intercalate list ++ ")"
  | .concat elements => do
    let list ← texts names elements
    return "\x7b" ++ ", ".intercalate list ++ "\x7d"
  | .replicate count elements => do
    let times ← text names count
    let list ← texts names elements
    return "\x7b" ++ times ++ "\x7b" ++ ", ".intercalate list ++ "\x7d\x7d"

def texts (names : Names) : List Expr → Except Misuse (List String)
  | [] => return []
  | e :: es => do
    let first ← text names e
    let rest ← texts names es
    return first :: rest

end

end Expr

end Netlist.Design
