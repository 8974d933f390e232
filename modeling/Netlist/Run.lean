import Netlist.Design.Display
import Netlist.Diagnostic.Report
import Netlist.Lowering.Module
import Netlist.Parser.Unit

/-!
A run over source files. The files are parsed and lowered in order, sharing names and log; modules
come in file order and then source order. Diagnostics are sorted by file and then by where they
start, and keep their order of emission otherwise.
-/
namespace Netlist

open Lowering (Context NoticeLevel)

structure Outcome where
  modules : List Design.Module
  diagnostics : List Diagnostic
  names : Names
  sources : Sources

namespace Outcome

def count (severity : Severity) (o : Outcome) : Nat :=
  (o.diagnostics.filter (·.severity = severity)).length

def errors (o : Outcome) : Nat := o.count .error

def warnings (o : Outcome) : Nat := o.count .warning

/-- The first module whose name has this text. -/
def find? (o : Outcome) (name : String) : Option Design.Module :=
  o.modules.find? fun m =>
    match m.name.text o.names with
    | .ok text => text == name
    | .error _ => false

def render (color : Bool) (o : Outcome) : Except Misuse String :=
  Report.renderAll color o.sources o.diagnostics

end Outcome

namespace Run

/-- The modules of one file. -/
def file (ctx : Context) (number : Nat) : SessionM (List Design.Module) := do
  let text ← Parser.parsing Parser.sourceText ctx.sources number
  Lowering.sourceText ctx text

/-- Where a diagnostic goes among `files` files: one of no file of theirs comes first. -/
def rank (files : Nat) (d : Diagnostic) : Nat :=
  if d.span.file < files then d.span.file + 1 else 0

/-- Whether `a` may come before `b`. -/
def inOrder (files : Nat) (a b : Diagnostic) : Bool :=
  rank files a < rank files b ||
    (rank files a == rank files b && a.span.start ≤ b.span.start)

/-- The outcome of a run that gave these modules for each file and left this session. -/
def outcome (ctx : Context) (modules : List (List Design.Module)) (session : Session) :
    Outcome where
  modules := modules.flatten
  diagnostics := session.log.held.toList.mergeSort (inOrder ctx.sources.files.size)
  names := session.names
  sources := ctx.sources

/-- Parses and lowers all files. -/
def all (ctx : Context) : Except Misuse Outcome :=
  let (result, session) := ((List.range ctx.sources.files.size).mapM (file ctx)).run.run {}
  result.map fun modules => outcome ctx modules session

/-- A run over named texts. -/
def texts (files : List (String × String)) (level : NoticeLevel) : Except Misuse Outcome :=
  all { sources := Sources.ofList files, level := level }

end Run

end Netlist
