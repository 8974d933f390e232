import Netlist.Diagnostic.Basic
import Netlist.Source.Sources

/-!
Diagnostics as text for a terminal: a headline, the marked source line unless the diagnostic has no
place, and footers.
-/
namespace Netlist.Report

def headline (d : Diagnostic) : String :=
  d.severity.text ++ "[" ++ d.code.text ++ "]: " ++ d.message

/-- The headline in bold. -/
def bold (text : String) : String := "\x1b[1m" ++ text ++ "\x1b[0m"

def spaces (n : Nat) : String := String.ofList (List.replicate n ' ')

/-- The location, and the line of the span's start with the span's width marked below it. -/
def excerpt (sources : Sources) (d : Diagnostic) : Except Misuse String := do
  let f ← sources.file d.span.file
  let place ← f.place d.span.start
  let location ← sources.locate d.span
  let text ← f.lineText d.span.start
  let width ← d.span.length
  let line := toString place.line
  let gutter := spaces line.length
  let marks := String.ofList (List.replicate (max width 1) '^')
  let remark :=
    match d.labels.find? (·.primary) with
    | some label => " " ++ label.message
    | none => ""
  return gutter ++ "--> " ++ location.text ++ "\n" ++
    gutter ++ " |\n" ++
    line ++ " | " ++ text ++ "\n" ++
    gutter ++ " | " ++ spaces (place.column - 1) ++ marks ++ remark ++ "\n"

def footers (title : String) (texts : List String) : String :=
  String.join (texts.map fun text => "   = " ++ title ++ ": " ++ text ++ "\n")

def render (color : Bool) (sources : Sources) (d : Diagnostic) : Except Misuse String := do
  let head := if color then bold (headline d) else headline d
  let body ← if d.span.isDummy then pure "" else excerpt sources d
  return head ++ "\n" ++ body ++ footers "note" d.notes ++ footers "help" d.help

/-- All diagnostics, an empty line between two. -/
def renderAll (color : Bool) (sources : Sources) (ds : List Diagnostic) : Except Misuse String := do
  return "\n".intercalate (← ds.mapM (render color sources))

end Netlist.Report
