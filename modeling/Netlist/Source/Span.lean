/-!
Spans: half-open byte ranges inside one file. Every syntax node and every diagnostic carries one.
-/
namespace Netlist

structure Span where
  file : Nat
  start : Nat
  stop : Nat
  deriving DecidableEq

namespace Span

/-- The file number of spans that lie in no file. -/
def noFile : Nat := 4294967295

/-- The span of things without a place. -/
def dummy : Span := ⟨noFile, 0, 0⟩

def isDummy (s : Span) : Bool := s.file == noFile

def isEmpty (s : Span) : Bool := s.start == s.stop

/-- The smallest span over both, for spans of one file. -/
def cover (a b : Span) : Span := ⟨a.file, min a.start b.start, max a.stop b.stop⟩

/-- The empty span where `s` starts. -/
def atStart (s : Span) : Span := ⟨s.file, s.start, s.start⟩

end Span

end Netlist
