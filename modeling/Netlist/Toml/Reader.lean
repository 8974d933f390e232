import Netlist.Toml.Node

/-!
Reading of TOML keys and values. Nothing is said about why a text cannot be read. Arrays and tables
in braces nest less than eighty deep, and a key has less than eighty parts.
-/
namespace Netlist.Toml

/-- Reads from the front of a text. A reading that fails leaves no trace. -/
abbrev Reader := StateT (List Char) Option

namespace Reader

def peek : Reader (Option Char) := return (← get).head?

def next : Reader Char := do
  match ← get with
  | [] => failure
  | c :: cs =>
    set cs
    return c

/-- The longest run of characters of a class. -/
def run (p : Char → Bool) : Reader (List Char) := do
  let cs ← get
  set (cs.dropWhile p)
  return cs.takeWhile p

/-- A run that is not empty. -/
def run1 (p : Char → Bool) : Reader (List Char) := do
  let cs ← run p
  if cs.isEmpty then failure else return cs

/-- A character of a class. -/
def one (p : Char → Bool) : Reader Char := do
  let c ← next
  if p c then return c else failure

/-- Whether the text begins like this. -/
def sees (text : String) : Reader Bool := return text.toList.isPrefixOf (← get)

/-- This text. -/
def lit (text : String) : Reader Unit := do
  if ← sees text then modify (·.drop text.length) else failure

/-- This text if it is there, and whether it is. -/
def eat (text : String) : Reader Bool := do
  if ← sees text then
    modify (·.drop text.length)
    return true
  else
    return false

/-- A number of readings that cannot be exceeded if each takes a character. -/
def bound : Reader Nat := return (← get).length + 1

def orNone {α : Type} (r : Reader α) : Reader (Option α) := (some <$> r) <|> pure none

def isBlank (c : Char) : Bool := c = ' ' || c = '\t'

def blanks : Reader Unit := do
  let _ ← run isBlank

def newline : Reader Unit := lit "\n" <|> lit "\x0d\n"

/-- What comments and all strings may hold: no controls but the tab. -/
def isText (c : Char) : Bool := c = '\t' || (c.toNat ≥ 0x20 && c.toNat ≠ 0x7f)

def comment : Reader Unit := do
  lit "#"
  let _ ← run isText

def atEnd : Reader Unit := do
  if (← get).isEmpty then return else failure

/-- The end of a line, or of the text. -/
def lineEnd : Reader Unit := newline <|> atEnd

/-- What may stand behind an entry or a header on its line. -/
def restOfLine : Reader Unit := do
  blanks
  if ← sees "#" then comment
  lineEnd

/-- What may stand between the items of an array. -/
def gapsWithin : (bound : Nat) → Reader Unit
  | 0 => return
  | bound + 1 => do
    blanks
    match ← peek with
    | some '#' =>
      comment
      newline
      gapsWithin bound
    | some '\n' | some '\x0d' =>
      newline
      gapsWithin bound
    | _ => return

def gaps : Reader Unit := do gapsWithin (← bound)

def isHex (c : Char) : Bool := c.isDigit || ('a' ≤ c.toLower && c.toLower ≤ 'f')

/-- The value of digits in a base. -/
def valueIn (base : Nat) (digits : List Char) : Nat :=
  digits.foldl
    (fun n c => n * base + if c.isDigit then c.toNat - 48 else c.toLower.toNat - 87) 0

/-- A number of characters of a class. -/
def times (p : Char → Bool) : Nat → Reader (List Char)
  | 0 => return []
  | n + 1 => do
    let c ← one p
    return c :: (← times p n)

/-- A character given by the hexadecimal digits of its code point. -/
def charOfHex (count : Nat) : Reader Char := do
  let value := valueIn 16 (← times isHex count)
  if value.isValidChar then return Char.ofNat value else failure

/-- What stands behind a backslash. -/
def escape : Reader Char := do
  match ← next with
  | 'b' => return '\x08'
  | 'f' => return '\x0c'
  | 'n' => return '\n'
  | 'r' => return '\x0d'
  | 't' => return '\t'
  | 'u' => charOfHex 4
  | 'U' => charOfHex 8
  | '\\' => return '\\'
  | '"' => return '"'
  | _ => failure

/-- The rest of a string on one line. -/
def basicTail : (bound : Nat) → Reader (List Char)
  | 0 => failure
  | bound + 1 => do
    match ← next with
    | '"' => return []
    | '\\' =>
      let c ← escape
      return c :: (← basicTail bound)
    | c => if isText c then return c :: (← basicTail bound) else failure

def basicString : Reader (List Char) := do
  lit "\""
  basicTail (← bound)

/-- A string on one line, taken as it is. -/
def literalString : Reader (List Char) := do
  lit "'"
  let text ← run fun c => isText c && c ≠ '\''
  lit "'"
  return text

/-- The end of a string over several lines: its last quotes, at most two, and the three that close
it. Gives the quotes that belong to the string. -/
def closing (quote : Char) : Reader (List Char) := do
  let quotes := ((← get).takeWhile (· = quote)).length
  if quotes < 3 then failure
  else
    let own := min (quotes - 3) 2
    modify (·.drop (own + 3))
    return List.replicate own quote

/-- Blanks and line ends. -/
def blankLinesWithin : (bound : Nat) → Reader Unit
  | 0 => return
  | bound + 1 => do
    blanks
    if (← orNone newline).isSome then blankLinesWithin bound

/-- A backslash at the end of a line, with all blanks and line ends behind it. -/
def joinedLines : Reader Unit := do
  lit "\\"
  blanks
  newline
  blankLinesWithin (← bound)

/-- The rest of a string over several lines. -/
def multilineTail : (bound : Nat) → Reader (List Char)
  | 0 => failure
  | bound + 1 =>
    closing '"' <|>
    (do
      newline
      return '\n' :: (← multilineTail bound)) <|>
    (do
      joinedLines
      multilineTail bound) <|>
    (do
      lit "\\"
      let c ← escape
      return c :: (← multilineTail bound)) <|>
    (do
      let c ← one fun c => isText c && c ≠ '\\'
      return c :: (← multilineTail bound))

/-- The rest of a string over several lines that is taken as it is. -/
def multilineLiteralTail : (bound : Nat) → Reader (List Char)
  | 0 => failure
  | bound + 1 =>
    closing '\'' <|>
    (do
      newline
      return '\n' :: (← multilineLiteralTail bound)) <|>
    (do
      let c ← one isText
      return c :: (← multilineLiteralTail bound))

def multilineString : Reader (List Char) := do
  lit "\"\"\""
  let _ ← orNone newline
  multilineTail (← bound)

def multilineLiteral : Reader (List Char) := do
  lit "'''"
  let _ ← orNone newline
  multilineLiteralTail (← bound)

def string : Reader Node := do
  let text ←
    if ← sees "\"\"\"" then multilineString
    else if ← sees "'''" then multilineLiteral
    else basicString <|> literalString
  return .string (String.ofList text)

def isBareKey (c : Char) : Bool := c.isAlphanum || c = '-' || c = '_'

def simpleKey : Reader String := do
  let text ← basicString <|> literalString <|> run1 isBareKey
  return String.ofList text

/-- The parts of a key behind its first. -/
def keyTail : (bound : Nat) → Reader (List String)
  | 0 => return []
  | bound + 1 => do
    if ← eat "." then
      blanks
      let part ← simpleKey
      blanks
      return part :: (← keyTail bound)
    else
      return []

/-- A key, dotted or not. -/
def key : Reader (List String) := do
  blanks
  let first ← simpleKey
  blanks
  let parts := first :: (← keyTail (← bound))
  if parts.length < 80 then return parts else failure

/-- Digits of a class, with single separators between them. -/
def separatedTail (p : Char → Bool) : (bound : Nat) → Reader (List Char)
  | 0 => return []
  | bound + 1 =>
    (do
      let c ← one p
      return c :: (← separatedTail p bound)) <|>
    (do
      lit "_"
      let c ← one p
      return c :: (← separatedTail p bound)) <|>
    pure []

def separated (p : Char → Bool) : Reader (List Char) := do
  let first ← one p
  return first :: (← separatedTail p (← bound))

/-- Whether there is a minus sign; a plus sign goes unnoticed. -/
def sign : Reader Bool := do
  if ← eat "-" then return true
  let _ ← eat "+"
  return false

/-- A sign and decimal digits without zeros in front. -/
def decimal : Reader (Bool × List Char) := do
  let negative ← sign
  if (← peek) = some '0' then
    let zero ← next
    return (negative, [zero])
  else
    return (negative, ← separated Char.isDigit)

def inRange (value : Int) : Reader Node :=
  if Int64.minValue.toInt ≤ value && value ≤ Int64.maxValue.toInt then return .integer value
  else failure

/-- A number with a base given by its letter. -/
def based (mark : String) (base : Nat) (p : Char → Bool) : Reader Node := do
  lit mark
  inRange (valueIn base (← separated p))

def integer : Reader Node := do
  if ← sees "0x" then based "0x" 16 isHex
  else if ← sees "0o" then based "0o" 8 fun c => '0' ≤ c && c ≤ '7'
  else if ← sees "0b" then based "0b" 2 fun c => c = '0' || c = '1'
  else
    let (negative, digits) ← decimal
    let value : Int := valueIn 10 digits
    inRange (if negative then -value else value)

def fraction : Reader (List Char) := do
  lit "."
  separated Char.isDigit

def exponent : Reader Int := do
  let _ ← one fun c => c = 'e' || c = 'E'
  let negative ← sign
  let value : Int := valueIn 10 (← separated Char.isDigit)
  return if negative then -value else value

/-- Whether `digits · 10 ^ power` is too large for a number of double precision. -/
def overflows (digits : Nat) (power : Int) : Bool :=
  let limit := Nat.pow 2 1024 - Nat.pow 2 970
  if digits = 0 then false
  else if power ≥ 400 then true
  else if power ≥ 0 then digits * Nat.pow 10 power.toNat ≥ limit
  else if (Nat.toDigits 10 digits).length ≤ (-power).toNat then false
  else digits ≥ limit * Nat.pow 10 (-power).toNat

/-- A number with a fraction or an exponent; a positive one must not be too large. -/
def finiteFloat : Reader Node := do
  let (negative, whole) ← decimal
  let places ← orNone fraction
  let power ← if places.isSome then orNone exponent else some <$> exponent
  let places := places.getD []
  if !negative && overflows (valueIn 10 (whole ++ places)) (power.getD 0 - places.length) then
    failure
  return .float

def specialFloat : Reader Node := do
  let _ ← sign
  lit "inf" <|> lit "nan"
  return .float

/-- Two digits whose value lies in a range. -/
def twoDigits (least most : Nat) : Reader Nat := do
  let value := valueIn 10 (← times Char.isDigit 2)
  if least ≤ value && value ≤ most then return value else failure

def daysIn (year month : Nat) : Nat :=
  if month = 2 then
    if year % 4 = 0 && (year % 100 ≠ 0 || year % 400 = 0) then 29 else 28
  else if month = 4 || month = 6 || month = 9 || month = 11 then 30
  else 31

def date : Reader Unit := do
  let year := valueIn 10 (← times Char.isDigit 4)
  lit "-"
  let month ← twoDigits 1 12
  lit "-"
  let _ ← twoDigits 1 (daysIn year month)

def time : Reader Unit := do
  let _ ← twoDigits 0 23
  lit ":"
  let _ ← twoDigits 0 59
  lit ":"
  let _ ← twoDigits 0 60
  let _ ← orNone do
    lit "."
    run1 Char.isDigit

def offset : Reader Unit :=
  lit "Z" <|> lit "z" <|> do
    let _ ← one fun c => c = '+' || c = '-'
    let _ ← twoDigits 0 23
    lit ":"
    let _ ← twoDigits 0 59

def datetime : Reader Node := do
  (do
    date
    let _ ← orNone do
      let _ ← one fun c => c = 'T' || c = 't' || c = ' '
      time
      orNone offset) <|> time
  return .datetime

def boolean : Reader Node :=
  (do
    lit "true"
    return .boolean true) <|>
  (do
    lit "false"
    return .boolean false)

/-- A value without parts. -/
def scalar : Reader Node :=
  string <|> datetime <|> finiteFloat <|> specialFloat <|> integer <|> boolean

/-- The rest of an array. -/
def arrayTail (value : Reader Node) : (bound : Nat) → Reader (List Node)
  | 0 => failure
  | bound + 1 => do
    gaps
    if ← eat "]" then return []
    let item ← value
    gaps
    if ← eat "," then
      return item :: (← arrayTail value bound)
    lit "]"
    return [item]

/-- An entry of a table in braces. -/
def inlineEntry (value : Reader Node) : Reader (List String × Node) := do
  let keys ← key
  lit "="
  blanks
  let node ← value
  blanks
  return (keys, node)

/-- The entries behind the first of a table in braces. -/
def inlineTail (value : Reader Node) : (bound : Nat) → Reader (List (List String × Node))
  | 0 => failure
  | bound + 1 => do
    if ← eat "," then
      let entry ← inlineEntry value
      return entry :: (← inlineTail value bound)
    lit "\x7d"
    return []

def inlineEntries (value : Reader Node) : Reader (List (List String × Node)) := do
  blanks
  if ← eat "\x7d" then return []
  let first ← inlineEntry value
  return first :: (← inlineTail value (← bound))

/-- A value in which arrays and tables in braces nest at most `depth` deep. -/
def valueWithin : (depth : Nat) → Reader Node
  | 0 => scalar
  | depth + 1 => do
    if ← eat "[" then
      return .array (← arrayTail (valueWithin depth) (← bound))
    if ← eat "\x7b" then
      let entries ← inlineEntries (valueWithin depth)
      match Node.bindAll entries (.empty .inline) with
      | some node => return node
      | none => failure
    scalar

def value : Reader Node := valueWithin 79

end Reader

end Netlist.Toml
