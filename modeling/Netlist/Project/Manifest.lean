import Netlist.Lowering.Basic
import Netlist.Text.Blank
import Netlist.Toml.Document

/-!
The manifest of a project: its name, its sources in order, and how notices are reported. Entries it
does not know are ignored. A record may also be written as an array of its values in order, and the
missing ones at the end then take their defaults.
-/
namespace Netlist.Project

open Lowering (NoticeLevel)
open Toml (Node)

structure Manifest where
  name : String
  sources : List String
  level : NoticeLevel
  deriving DecidableEq

inductive ManifestError where
  /-- The text is no document, or an entry has the wrong form. -/
  | unreadable
  | blankName
  | blankSource
  | duplicateSource (path : String)
  deriving DecidableEq

def ManifestError.message : ManifestError → String
  | .unreadable => "failed to parse configuration"
  | .blankName => "missing required field: project.name"
  | .blankSource => "validation error: empty path in project.sources"
  | .duplicateSource path => "validation error: duplicate source `" ++ path ++ "`"

/-- A field of a record. It stands under its name in a table, or at its place in an array. A point
in time is a record of no known fields. -/
def field? (name : String) (place : Nat) : Node → Option (Option Node)
  | .table entries _ => some (entries.lookup name)
  | .array items => some items[place]?
  | .tables items => some items[place]?
  | .datetime => some none
  | _ => none

def text? : Node → Option String
  | .string text => some text
  | _ => none

def texts? : Node → Option (List String)
  | .array items => items.mapM text?
  | .tables items => items.mapM text?
  | _ => none

/-- Whether a value holds nothing. -/
def isVoid : Node → Bool
  | .array items => items.isEmpty
  | .table entries _ => entries.isEmpty
  | _ => false

/-- The level with this name. -/
def levelNamed? (name : String) : Option NoticeLevel :=
  NoticeLevel.all.find? (·.text == name)

/-- A level is given by its name, or by a table whose only entry has that name and holds nothing. -/
def level? : Node → Option NoticeLevel
  | .string name => levelNamed? name
  | .table [(name, content)] _ => if isVoid content then levelNamed? name else none
  | _ => none

/-- What a field holds, or its default. -/
def orDefault {α : Type} (read : Node → Option α) (default : α) : Option Node → Option α
  | some node => read node
  | none => some default

def convert? (node : Node) : Option NoticeLevel := do
  orDefault level? .warning (← field? "notice_severity" 0 node)

def read? (root : Node) : Option Manifest := do
  let project ← (← field? "project" 0 root)
  let name ← text? (← (← field? "name" 0 project))
  let sources ← orDefault texts? [] (← field? "sources" 1 project)
  let level ← orDefault convert? .warning (← field? "convert" 1 root)
  return ⟨name, sources, level⟩

/-- The first thing wrong with the sources of a manifest that follow those already `seen`. -/
def sourcesError? (seen : List String) : List String → Option ManifestError
  | [] => none
  | path :: rest =>
    if (Text.trim path.toList).isEmpty then some .blankSource
    else if path ∈ seen then some (.duplicateSource path)
    else sourcesError? (path :: seen) rest

def Manifest.error? (m : Manifest) : Option ManifestError :=
  if (Text.trim m.name.toList).isEmpty then some .blankName else sourcesError? [] m.sources

/-- Reads a manifest and checks it. -/
def Manifest.ofText (text : String) : Except ManifestError Manifest :=
  match (Toml.parse? text).bind read? with
  | none => .error .unreadable
  | some m =>
    match m.error? with
    | some e => .error e
    | none => .ok m

end Netlist.Project
