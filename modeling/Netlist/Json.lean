/-!
JSON values, and the conventions by which records and alternatives are read from them. A record is
an object with a member per field, or an array of all its fields in order. An alternative is its
name alone, or an object whose only member has that name. A missing member counts as null.
-/
namespace Netlist

inductive Json where
  | null
  | bool (b : Bool)
  /-- The number `mantissa · 10 ^ (-places)`. -/
  | number (mantissa : Int) (places : Nat)
  | string (s : String)
  | array (items : List Json)
  | object (members : List (String × Json))
  deriving Inhabited

namespace Json

def ofNat (n : Nat) : Json := .number n 0

/-- A natural number below `limit`. -/
def natBelow? (limit : Nat) : Json → Option Nat
  | .number (.ofNat n) 0 => if n < limit then some n else none
  | _ => none

/-- A number of 32 bits. -/
def word? : Json → Option Nat := natBelow? UInt32.size

/-- A number of 64 bits. -/
def wideWord? : Json → Option Nat := natBelow? UInt64.size

def string? : Json → Option String
  | .string s => some s
  | _ => none

def bool? : Json → Option Bool
  | .bool b => some b
  | _ => none

/-- A text of one character. -/
def char? : Json → Option Char
  | .string s =>
    match s.toList with
    | [c] => some c
    | _ => none
  | _ => none

def list? {α : Type} (item : Json → Option α) : Json → Option (List α)
  | .array items => items.mapM item
  | _ => none

/-- Null stands for nothing. -/
def option? {α : Type} (item : Json → Option α) : Json → Option (Option α)
  | .null => some none
  | j => (item j).map some

def member (members : List (String × Json)) (name : String) : Json :=
  (members.lookup name).getD .null

/-- The members of an object with the given names, in their order. -/
def members? (names : List String) : Json → Option (List Json)
  | .object members => some (names.map (member members))
  | _ => none

/-- The fields of a record, in the order of their names. -/
def record? (names : List String) : Json → Option (List Json)
  | .object members => some (names.map (member members))
  | .array items => if items.length = names.length then some items else none
  | _ => none

/-- The name of an alternative and what it holds, if anything is given. -/
def alternative? : Json → Option (String × Option Json)
  | .string name => some (name, none)
  | .object [(name, content)] => some (name, some content)
  | _ => none

/-- The name of an alternative that holds nothing. -/
def constant? (j : Json) : Option String :=
  match j.alternative? with
  | some (name, none) => some name
  | some (name, some .null) => some name
  | _ => none

/-- The element of `all` whose name is given. -/
def oneOf? {α : Type} (all : List α) (name : α → String) (j : Json) : Option α :=
  j.constant?.bind fun given => all.find? (name · == given)

def ofOption {α : Type} (item : α → Json) : Option α → Json
  | none => .null
  | some a => item a

def ofList {α : Type} (item : α → Json) (items : List α) : Json := .array (items.map item)

/-- An alternative that holds something. -/
def tagged (name : String) (content : Json) : Json := .object [(name, content)]

mutual

/-- Nesting depth; a value without parts has depth one. -/
def depth : Json → Nat
  | .array items => depthOfItems items + 1
  | .object members => depthOfMembers members + 1
  | _ => 1

def depthOfItems : List Json → Nat
  | [] => 0
  | j :: js => max (depth j) (depthOfItems js)

def depthOfMembers : List (String × Json) → Nat
  | [] => 0
  | (_, j) :: ms => max (depth j) (depthOfMembers ms)

end

end Json

end Netlist
