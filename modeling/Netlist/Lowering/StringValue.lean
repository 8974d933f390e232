import Netlist.Token.Lexeme

/-!
The values of string literals: the quotes go, and escapes stand for the characters they name.
-/
namespace Netlist.Lowering

def isOctalDigit (c : Char) : Bool := '0' ≤ c && c ≤ '7'

/-- The value of a hexadecimal digit. -/
def digitValue (c : Char) : Nat :=
  if c.isDigit then c.toNat - 48 else c.toLower.toNat - 87

/-- The value of digits in a base. -/
def digitsValue (base : Nat) (ds : List Char) : Nat :=
  ds.foldl (fun n d => n * base + digitValue d) 0

/-- The characters that an escape stands for, and how many of those behind `c` belong to it. A code
has at most two hexadecimal or three octal digits. -/
def escape (c : Char) (cs : List Char) : List Char × Nat :=
  match c with
  | 'n' => (['\n'], 0)
  | 't' => (['\t'], 0)
  | 'v' => (['\x0b'], 0)
  | 'f' => (['\x0c'], 0)
  | 'a' => (['\x07'], 0)
  | 'x' =>
    let digits := (cs.take 2).takeWhile Piece.isHexDigit
    ([Char.ofNat (digitsValue 16 digits)], digits.length)
  | _ =>
    if isOctalDigit c then
      let digits := (cs.take 2).takeWhile isOctalDigit
      ([Char.ofNat (digitsValue 8 (c :: digits))], digits.length)
    else ([c], 0)

/-- The value of what stands between the quotes, where the first `skip` characters belong to an
escape read before. -/
def unescape : (skip : Nat) → List Char → List Char
  | _, [] => []
  | skip + 1, _ :: cs => unescape skip cs
  | 0, c :: cs =>
    if c = '\\' then
      match cs with
      | [] => ['\\']
      | d :: rest =>
        let (value, used) := escape d rest
        value ++ unescape (used + 1) cs
    else c :: unescape 0 cs

/-- A text without the quotes at its two ends; one that lacks them is kept whole. -/
def withoutQuotes (cs : List Char) : List Char :=
  match cs with
  | '"' :: rest => if rest.getLast? = some '"' then rest.dropLast else cs
  | _ => cs

/-- The value of the text of a string literal. -/
def stringValue (cs : List Char) : List Char := unescape 0 (withoutQuotes cs)

end Netlist.Lowering
