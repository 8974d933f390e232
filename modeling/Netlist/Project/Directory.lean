/-!
A directory with the files below it, and how paths lead to them. A path is followed part by part:
an empty part or a dot stays, two dots go up, and any other part must name a directory unless it is
the last. Outside the directory no names are known.
-/
namespace Netlist.Project

/-- Why a file cannot be read. -/
inductive ReadError where
  | notFound
  | notADirectory
  | isADirectory
  /-- A path cannot hold a null character. -/
  | invalidPath
  /-- A part of the path, or the whole, is too long. -/
  | longName
  /-- The bytes are no UTF-8 text. -/
  | notText
  deriving DecidableEq

/-- The files of a directory by their paths below it, later ones in place of earlier. -/
structure Directory where
  files : List (List String × ByteArray)

/-- Where a path has led so far: to a place below the directory, or to a directory outside. -/
inductive Spot where
  | inside (path : List String)
  | outside
  deriving DecidableEq

namespace Directory

/-- The parts of a path. -/
def parts (path : String) : List String := path.splitOn "/"

def ofList (files : List (String × ByteArray)) : Directory :=
  ⟨files.map fun (path, bytes) => ((parts path).filter fun p => p ≠ "" && p ≠ ".", bytes)⟩

/-- Whether a part is too long for the name of anything. -/
def isLong (part : String) : Bool := part.utf8ByteSize > 255

/-- The least length of a path, in bytes, that is too long to be followed. -/
def pathLimit : Nat := 4096

def file? (d : Directory) (path : List String) : Option ByteArray :=
  (d.files.reverse.find? (·.1 = path)).map (·.2)

/-- Whether some file lies below a path. -/
def hasBelow (d : Directory) (path : List String) : Bool :=
  path.isEmpty || d.files.any fun (p, _) => path.isPrefixOf p && path.length < p.length

/-- What the parts of a path lead to: a file or a directory. -/
def follow (d : Directory) : Spot → List String → Except ReadError Spot
  | spot, [] => .ok spot
  | .outside, part :: rest =>
    if part = "" || part = "." || part = ".." then follow d .outside rest
    else if isLong part then .error .longName
    else .error .notFound
  | .inside here, part :: rest =>
    if part = "" || part = "." then follow d (.inside here) rest
    else if part = ".." then
      follow d (if here.isEmpty then .outside else .inside here.dropLast) rest
    else if isLong part then .error .longName
    else
      let next := here ++ [part]
      if d.hasBelow next then follow d (.inside next) rest
      else if (d.file? next).isSome then
        if rest.isEmpty then .ok (.inside next) else .error .notADirectory
      else .error .notFound

/-- The bytes of what a path has led to, which must be a file. -/
def bytes (d : Directory) : Spot → Except ReadError ByteArray
  | .outside => .error .isADirectory
  | .inside path =>
    match d.file? path with
    | some bytes => .ok bytes
    | none => .error .isADirectory

/-- The text of the file at a path. An absolute path begins outside. -/
def read (d : Directory) (path : String) : Except ReadError String := do
  if path.contains '\x00' then
    throw .invalidPath
  if path.utf8ByteSize ≥ pathLimit then
    throw .longName
  let spot ← d.follow (if path.startsWith "/" then .outside else .inside []) (parts path)
  match String.fromUTF8? (← d.bytes spot) with
  | some text => return text
  | none => throw .notText

end Directory

end Netlist.Project
