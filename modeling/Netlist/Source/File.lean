import Netlist.Misuse
import Netlist.Text.Bytes

/-!
Source files and the places inside them. Lines are numbered from one; a line starts at offset zero
and after every newline, and the line of an offset is looked up among these starts by halving. A
place past the end counts as on the last line. Lines and columns are numbers of 32 bits, so an
offset may have no place.
-/
namespace Netlist

/-- The slot of a number in an increasing row: taken if the number is there, else free. -/
inductive Slot where
  | taken (index : Nat)
  | free (index : Nat)

namespace Slot

/-- The slot of `x` in a row, looked for from `low` up to `high`. -/
def between (row : Array Nat) (x low high : Nat) (hhigh : high ≤ row.size) : Slot :=
  if hopen : low < high then
    let middle := low + (high - low) / 2
    have hmiddle : middle < row.size := by omega
    if row[middle] = x then taken middle
    else if row[middle] < x then between row x (middle + 1) high hhigh
    else between row x low middle (Nat.le_of_lt hmiddle)
  else free low
termination_by high - low

def ofRow (row : Array Nat) (x : Nat) : Slot := between row x 0 row.size (Nat.le_refl _)

end Slot

structure SourceFile where
  path : String
  content : String

/-- A line number and a column, both counted from one, the column in bytes. -/
structure Place where
  line : Nat
  column : Nat
  deriving DecidableEq

namespace SourceFile

def chars (f : SourceFile) : List Char := f.content.toList

/-- The offsets just after each newline of a text that begins at `offset`. -/
def newlineEnds (offset : Nat) : List Char → List Nat
  | [] => []
  | c :: cs =>
    let next := offset + c.utf8Size
    if c = '\n' then next :: newlineEnds next cs else newlineEnds next cs

/-- The offsets at which lines start. -/
def lineStarts (f : SourceFile) : List Nat := 0 :: newlineEnds 0 f.chars

/-- The line of an offset, counted from zero: the one that starts there, or else the one before the
first that starts behind it. -/
def lineIndex? (f : SourceFile) (offset : Nat) : Option Nat :=
  match Slot.ofRow f.lineStarts.toArray offset with
  | .taken line => some line
  | .free 0 => none
  | .free (line + 1) => some line

/-- The line and column of a byte offset. -/
def placeOf? (f : SourceFile) (offset : Nat) : Option Place := do
  let line ← f.lineIndex? offset
  let start ← f.lineStarts[line]?
  return ⟨line + 1, offset - start + 1⟩

/-- The line and column of a byte offset, both numbers of 32 bits. -/
def place (f : SourceFile) (offset : Nat) : Except Misuse Place :=
  match f.placeOf? offset with
  | none => .error (.noLine offset)
  | some p =>
    if p.line < UInt32.size && p.column < UInt32.size then .ok p else .error (.farPlace offset)

/-- The offset at which a line ends, counted from zero: at its newline or with the text. -/
def lineEnd (f : SourceFile) (line : Nat) : Nat :=
  match f.lineStarts[line + 1]? with
  | some next => next - 1
  | none => Text.byteLength f.chars

/-- The text of a line, counted from zero, without its newline and the carriage returns before
it. -/
def lineAt? (f : SourceFile) (line : Nat) : Option String := do
  let start ← f.lineStarts[line]?
  let cs ← Text.slice? start (f.lineEnd line) f.chars
  return String.ofList (cs.reverse.dropWhile (· = '\r')).reverse

/-- The text of the line that holds `offset`. -/
def lineText (f : SourceFile) (offset : Nat) : Except Misuse String := do
  let p ← f.place offset
  match f.lineAt? (p.line - 1) with
  | some text => return text
  | none => throw (.noLine offset)

def slice? (f : SourceFile) (start stop : Nat) : Option String :=
  (Text.slice? start stop f.chars).map String.ofList

end SourceFile

end Netlist
