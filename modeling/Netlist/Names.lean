import Netlist.Misuse

/-!
Names: every distinct text gets the next free index the first time it is entered, and keeps it.
-/
namespace Netlist

structure Names where
  texts : Array String := #[]

namespace Names

def size (names : Names) : Nat := names.texts.size

/-- The index of a text entered before. -/
def find? (names : Names) (text : String) : Option Nat := names.texts.idxOf? text

/-- Enters a text; one entered before keeps its index. -/
def intern (names : Names) (text : String) : Nat × Names :=
  match names.find? text with
  | some index => (index, names)
  | none => (names.texts.size, ⟨names.texts.push text⟩)

def resolve? (names : Names) (index : Nat) : Option String := names.texts[index]?

def resolve (names : Names) (index : Nat) : Except Misuse String :=
  match names.resolve? index with
  | some text => .ok text
  | none => .error (.unknownName index)

/-- The names of the given texts, entered in order. -/
def ofList (texts : List String) : Names :=
  texts.foldl (fun names text => (names.intern text).2) {}

def toList (names : Names) : List String := names.texts.toList

end Names

end Netlist
