import Netlist.Diagnostic.Basic

/-!
The log of a session. It holds diagnostics in the order they were emitted and counts errors; taking
the diagnostics out leaves the count as it is.
-/
namespace Netlist

structure Log where
  held : Array Diagnostic := #[]
  errors : Nat := 0

namespace Log

def emit (log : Log) (d : Diagnostic) : Log :=
  ⟨log.held.push d, if d.severity = .error then log.errors + 1 else log.errors⟩

def emitAll (log : Log) (ds : List Diagnostic) : Log := ds.foldl emit log

def hasErrors (log : Log) : Bool := log.errors > 0

/-- How many held diagnostics carry a code. -/
def countCode (log : Log) (code : Code) : Nat :=
  (log.held.toList.filter (·.code = code)).length

/-- The held diagnostics, and the log without them. -/
def takeAll (log : Log) : List Diagnostic × Log := (log.held.toList, { log with held := #[] })

end Log

end Netlist
