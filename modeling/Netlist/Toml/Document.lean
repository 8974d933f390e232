import Netlist.Toml.Reader

/-!
TOML documents: entries, and headers that say which table the entries below them belong to.
-/
namespace Netlist.Toml

/-- What a line of a document says. -/
inductive Statement where
  | entry (keys : List String) (value : Node)
  | header (keys : List String)
  | arrayHeader (keys : List String)

namespace Reader

def arrayHeader : Reader Statement := do
  lit "[["
  let keys ← key
  lit "]]"
  restOfLine
  return .arrayHeader keys

def header : Reader Statement := do
  lit "["
  let keys ← key
  lit "]"
  restOfLine
  return .header keys

def entry : Reader Statement := do
  let keys ← key
  lit "="
  blanks
  let node ← value
  restOfLine
  return .entry keys node

/-- The statements up to the end of the text. -/
def statementsWithin : (bound : Nat) → Reader (List Statement)
  | 0 => failure
  | bound + 1 => do
    blanks
    match ← peek with
    | none => return []
    | some '#' =>
      comment
      lineEnd
      statementsWithin bound
    | some '\n' | some '\x0d' =>
      newline
      statementsWithin bound
    | some '[' =>
      let first ← if ← sees "[[" then arrayHeader else header
      return first :: (← statementsWithin bound)
    | some _ =>
      let first ← entry
      return first :: (← statementsWithin bound)

end Reader

/-- A header with the entries below it; the first section of a document has none. -/
structure Section where
  head : Statement
  entries : List (List String × Node)

/-- The entries before the first header, and the sections behind. -/
def sections : List Statement → List (List String × Node) × List Section
  | [] => ([], [])
  | .entry keys value :: rest =>
    let (entries, later) := sections rest
    ((keys, value) :: entries, later)
  | head :: rest =>
    let (entries, later) := sections rest
    ([], ⟨head, entries⟩ :: later)

/-- Declares a table inside its parent. One implied before keeps what it holds. -/
def declare (key : String) (entries : List (List String × Node)) : Node → Option Node
  | .table siblings origin => do
    let held ←
      match siblings.lookup key with
      | none => some []
      | some (.table inner .implied) => some inner
      | some _ => none
    let table ← Node.bindAll entries (.table held .declared)
    some (.table (siblings.filter (·.1 ≠ key) ++ [(key, table)]) origin)
  | _ => none

/-- Adds a table to an array of tables inside its parent. -/
def declareNext (key : String) (entries : List (List String × Node)) : Node → Option Node
  | .table siblings origin => do
    let table ← Node.bindAll entries (.empty .declared)
    match siblings.lookup key with
    | none => some (.table (siblings ++ [(key, .tables [table])]) origin)
    | some (.tables items) =>
      some (.table (Node.put siblings key (.tables (items ++ [table]))) origin)
    | some _ => none
  | _ => none

/-- Adds a section to a document. -/
def addSection (root : Node) (s : Section) : Option Node :=
  match s.head with
  | .header keys => do
    let key ← keys.getLast?
    root.changeAt false (declare key s.entries) keys.dropLast
  | .arrayHeader keys => do
    let key ← keys.getLast?
    root.changeAt false (declareNext key s.entries) keys.dropLast
  | .entry _ _ => none

/-- Reads a document, which may begin with a byte order mark. -/
def parse? (text : String) : Option Node := do
  let cs :=
    match text.toList with
    | '\ufeff' :: rest => rest
    | cs => cs
  let (statements, _) ← StateT.run (Reader.statementsWithin (cs.length + 1)) cs
  let (entries, later) := sections statements
  let root ← Node.bindAll entries (.empty .declared)
  later.foldlM addSection root

end Netlist.Toml
