import Netlist.Design.Tree
import Netlist.Text.Blank
import Netlist.Token.Lexeme

/-!
The values of number literals. A tick divides the size of a literal from its base and digits;
without one the literal is a plain decimal number.
-/
namespace Netlist.Lowering

open Design

/-- What stands before and behind the first tick. -/
def splitAtTick? (cs : List Char) : Option (List Char × List Char) :=
  match cs.dropWhile (· ≠ '\'') with
  | [] => none
  | _ :: after => some (cs.takeWhile (· ≠ '\''), after)

def withoutSeparators (cs : List Char) : List Char := cs.filter (· ≠ '_')

/-- A plain decimal number. One that needs more than 64 bits keeps its digits. -/
def plainNumber? (cs : List Char) : Option Literal :=
  let digits := withoutSeparators cs
  if digits.isEmpty || !digits.all Char.isDigit then none
  else if Piece.decimalValue digits < UInt64.size then some (.int (Piece.decimalValue digits))
  else some (.based none false .decimal (String.ofList digits))

/-- A width of at most 32 bits, perhaps with a plus sign. -/
def width? (cs : List Char) : Option Nat :=
  let digits := if cs.head? = some '+' then cs.tail else cs
  if digits.isEmpty || !digits.all Char.isDigit then none
  else if Piece.decimalValue digits < UInt32.size then some (Piece.decimalValue digits)
  else none

def radix? (c : Char) : Option Radix :=
  match c.toLower with
  | 'b' => some .binary
  | 'o' => some .octal
  | 'd' => some .decimal
  | 'h' => some .hex
  | _ => none

/-- The digits of a based literal as they are kept. -/
def basedDigits (cs : List Char) : List Char :=
  (cs.filter fun c => c ≠ '_' && !Text.isBlank c).map Char.toLower

/-- A literal of the given width, from its radix letter on. -/
def radixNumber? (width : Option Nat) (signed : Bool) : List Char → Option Literal
  | [] => none
  | c :: cs => do
    let radix ← radix? c
    let digits := basedDigits cs
    if digits.isEmpty then none else some (.based width signed radix (String.ofList digits))

/-- A literal of the given width, from the character after its tick on. -/
def basedNumber? (width : Option Nat) : List Char → Option Literal
  | [] => none
  | c :: cs =>
    if Piece.isSignFlag c then radixNumber? width true cs else radixNumber? width false (c :: cs)

/-- A literal with a tick. -/
def tickNumber? (size after : List Char) : Option Literal :=
  let size := withoutSeparators (Text.trim size)
  if size.isEmpty then
    match after with
    | [c] => if Piece.isFill c then some (.fill c.toLower) else basedNumber? none [c]
    | _ => basedNumber? none after
  else do
    let width ← width? size
    basedNumber? (some width) after

/-- The value of the text of a number literal. -/
def number? (cs : List Char) : Option Literal :=
  match splitAtTick? cs with
  | none => plainNumber? cs
  | some (size, after) => tickNumber? size after

end Netlist.Lowering
