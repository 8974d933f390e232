import Netlist.Project.Directory
import Netlist.Project.Manifest
import Netlist.Run

/-!
A run over the sources of a project. The manifest is read from a file of the project's directory,
and the sources it lists from paths below that directory, in order.
-/
namespace Netlist.Project

inductive LoadError where
  /-- The manifest cannot be read. -/
  | missing (cause : ReadError)
  | manifest (error : ManifestError)
  /-- A source cannot be read. -/
  | source (path : String) (cause : ReadError)

/-- A path below a directory; an absolute one stays as it is. -/
def join (root path : String) : String :=
  if path.startsWith "/" then path else root ++ "/" ++ path

def loadManifest (d : Directory) (file : String) : Except LoadError Manifest := do
  match d.read file with
  | .error cause => throw (.missing cause)
  | .ok text =>
    match Manifest.ofText text with
    | .error e => throw (.manifest e)
    | .ok m => return m

/-- The sources of a manifest, under the name `root` of their directory. -/
def loadSources (d : Directory) (root : String) :
    List String → Except LoadError (List (String × String))
  | [] => return []
  | path :: rest => do
    match d.read path with
    | .error cause => throw (.source (join root path) cause)
    | .ok text => return (join root path, text) :: (← loadSources d root rest)

/-- What a project is made of: its sources with their texts, and the level of notices. -/
def load (d : Directory) (root file : String) :
    Except LoadError (List (String × String) × Lowering.NoticeLevel) := do
  let manifest ← loadManifest d file
  let sources ← loadSources d root manifest.sources
  return (sources, manifest.level)

end Netlist.Project
