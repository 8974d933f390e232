/-!
TOML documents as trees. A table remembers how it came to be, because that decides what may still
be added to it.
-/
namespace Netlist.Toml

inductive Origin where
  /-- Written in braces, and closed. -/
  | inline
  /-- Given by a header, or the document itself. -/
  | declared
  /-- Implied by the header of a table inside it. -/
  | implied
  /-- Implied by a dotted key. -/
  | dotted
  deriving DecidableEq

inductive Node where
  | string (text : String)
  | integer (value : Int)
  | float
  | boolean (value : Bool)
  | datetime
  | array (items : List Node)
  | table (entries : List (String × Node)) (origin : Origin)
  /-- Tables given by headers in double brackets. -/
  | tables (items : List Node)

namespace Origin

/-- Whether dotted keys may reach through a table inside another. -/
def isImplicit : Origin → Bool
  | .implied => true
  | .dotted => true
  | _ => false

end Origin

namespace Node

def empty (origin : Origin) : Node := .table [] origin

/-- The entries with one of them set; a new one comes last. -/
def put (entries : List (String × Node)) (key : String) (node : Node) : List (String × Node) :=
  if (entries.lookup key).isSome then
    entries.map fun (k, n) => if k = key then (k, node) else (k, n)
  else entries ++ [(key, node)]

/-- Changes the table at a path, making the tables on the way that are not there. A header may
reach through every table that is not written in braces, a dotted key only through implied ones;
both reach through the last of an array of tables. -/
def changeAt (dotted : Bool) (change : Node → Option Node) : List String → Node → Option Node
  | [], node => change node
  | key :: path, .table entries origin => do
    let child ←
      match entries.lookup key with
      | none => changeAt dotted change path (empty (if dotted then .dotted else .implied))
      | some (.table inner o) =>
        if o = .inline || (dotted && !o.isImplicit) then none
        else changeAt dotted change path (.table inner o)
      | some (.tables items) =>
        match items.getLast? with
        | some last => do
          let last ← changeAt dotted change path last
          some (.tables (items.dropLast ++ [last]))
        | none => none
      | some _ => none
    some (.table (put entries key child) origin)
  | _ :: _, _ => none

/-- Adds an entry to a table, reached by a path of dotted keys that may be empty. -/
def insertHere (viaPath : Bool) (key : String) (value : Node) : Node → Option Node
  | .table entries origin =>
    if (origin = .dotted) = viaPath && (entries.lookup key).isNone then
      some (.table (entries ++ [(key, value)]) origin)
    else none
  | _ => none

/-- Adds an entry whose key may be dotted. -/
def bind (keys : List String) (value : Node) (node : Node) : Option Node := do
  let key ← keys.getLast?
  let path := keys.dropLast
  changeAt true (insertHere (!path.isEmpty) key value) path node

/-- Adds entries in order. -/
def bindAll (entries : List (List String × Node)) (node : Node) : Option Node :=
  entries.foldlM (fun node (keys, value) => bind keys value node) node

end Node

end Netlist.Toml
