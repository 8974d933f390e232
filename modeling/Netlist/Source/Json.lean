import Netlist.Diagnostic.Basic

/-!
Spans read from JSON.
-/
namespace Netlist

def Span.ofJson? (j : Json) : Option Span := do
  let [file, start, stop] ← j.record? ["file", "start", "end"] | none
  return ⟨← file.word?, ← start.word?, ← stop.word?⟩

end Netlist
