import Netlist.Source.File

/-!
The source files of a session, numbered in the order they were added.
-/
namespace Netlist

structure Sources where
  files : Array SourceFile := #[]

/-- Where a span lies: its file's path, its first place and the place of its last byte. -/
structure Location where
  path : String
  first : Place
  last : Place

/-- Written as `path:line:column` of the first place. -/
def Location.text (l : Location) : String :=
  l.path ++ ":" ++ toString l.first.line ++ ":" ++ toString l.first.column

namespace Sources

/-- Adds a file and gives its number. -/
def add (sources : Sources) (path content : String) : Nat × Sources :=
  (sources.files.size, ⟨sources.files.push ⟨path, content⟩⟩)

def ofList (files : List (String × String)) : Sources :=
  files.foldl (fun sources (path, content) => (sources.add path content).2) {}

def file (sources : Sources) (number : Nat) : Except Misuse SourceFile :=
  match sources.files[number]? with
  | some f => .ok f
  | none => .error (.unknownFile number)

/-- The text a span covers. -/
def snippet (sources : Sources) (span : Span) : Except Misuse String := do
  let f ← sources.file span.file
  match f.slice? span.start span.stop with
  | some text => .ok text
  | none => .error (.badSlice span)

def locate (sources : Sources) (span : Span) : Except Misuse Location := do
  let f ← sources.file span.file
  let first ← f.place span.start
  let last ← f.place (max (span.stop - 1) span.start)
  return ⟨f.path, first, last⟩

end Sources

/-- The smallest span over two spans, which must lie in one file. -/
def Span.merge (a b : Span) : Except Misuse Span :=
  if a.file = b.file then .ok (a.cover b) else .error (.differentFiles a b)

/-- The number of bytes a span covers. -/
def Span.length (s : Span) : Except Misuse Nat :=
  if s.start ≤ s.stop then .ok (s.stop - s.start) else .error (.reversed s)

end Netlist
