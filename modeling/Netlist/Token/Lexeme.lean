import Netlist.Token.Kind
import Netlist.Text.Bytes

/-!
Lexemes: a source text cut into consecutive pieces, none of them empty. A piece is a token, or
something between tokens: blanks, a comment, a compiler directive. What a piece is depends on the
text from its first character on and, for `*)` alone, on how many attribute brackets are open.
-/
namespace Netlist

/-- What can be wrong with a lexeme. -/
inductive Problem where
  /-- A block comment runs to the end of the text. -/
  | openComment
  /-- Compiler directives are skipped. -/
  | directive
  /-- A backslash with nothing after it. -/
  | emptyEscape
  /-- A dollar sign without a name. -/
  | loneDollar
  /-- A signed literal without a base. -/
  | missingBase
  /-- The size of a literal needs more than 32 bits. -/
  | wideSize
  /-- A string without its closing quote. -/
  | openString
  /-- A character that begins no token. -/
  | stray (c : Char)
  deriving DecidableEq

def Problem.message : Problem → String
  | .openComment => "unterminated block comment"
  | .directive => "compiler directives are not supported"
  | .emptyEscape => "empty escaped identifier"
  | .loneDollar => "expected identifier after '$'"
  | .missingBase => "expected base after signed flag"
  | .wideSize => "literal width does not fit in 32 bits"
  | .openString => "unterminated string literal"
  | .stray c => "unrecognized character '" ++ c.toString ++ "'"

/-- The start of a text, taken as one lexeme: the kind unless it lies between tokens, the number of
characters, and what is wrong with them. -/
structure Piece where
  kind : Option Kind
  width : Nat
  problems : List Problem := []

namespace Piece

def isSpace (c : Char) : Bool :=
  c = ' ' || c = '\t' || c = '\n' || c = '\x0c' || c = '\r'

/-- What may stand between the parts of a sized literal. -/
def isGap (c : Char) : Bool := c = ' ' || c = '\t'

def isNameStart (c : Char) : Bool := c.isAlpha || c = '_'

def isNameChar (c : Char) : Bool := c.isAlphanum || c = '_' || c = '$'

/-- Digits of decimal numbers, with the separator. -/
def isDecimal (c : Char) : Bool := c.isDigit || c = '_'

def isRadix (c : Char) : Bool :=
  c.toLower = 'b' || c.toLower = 'o' || c.toLower = 'd' || c.toLower = 'h'

def isSignFlag (c : Char) : Bool := c.toLower = 's'

/-- What may follow the tick of a based literal. -/
def isBaseLetter (c : Char) : Bool := isRadix c || isSignFlag c

def isHexDigit (c : Char) : Bool :=
  c.isDigit || ('a' ≤ c.toLower && c.toLower ≤ 'f')

/-- Digits after a radix letter, with the separator and the unknown, floating and wildcard digit. -/
def isBasedDigit (radix c : Char) : Bool :=
  c = '_' || c.toLower = 'x' || c.toLower = 'z' || c = '?' ||
    match radix.toLower with
    | 'b' => c = '0' || c = '1'
    | 'o' => '0' ≤ c && c ≤ '7'
    | 'd' => c.isDigit
    | _ => isHexDigit c

/-- How many characters after the tick belong to a based literal, and whether it has a base. -/
def basedTail (cs : List Char) : Nat × Bool :=
  let flag := if cs.head?.any isSignFlag then 1 else 0
  match cs.drop flag with
  | [] => (flag, false)
  | radix :: rest =>
    if isRadix radix then
      let gap := (rest.takeWhile isGap).length
      let digits := ((rest.drop gap).takeWhile (isBasedDigit radix)).length
      (flag + 1 + gap + digits, true)
    else (flag, false)

/-- The number written by decimal digits, separators aside. -/
def decimalValue (cs : List Char) : Nat :=
  (cs.filter (· ≠ '_')).foldl (fun n c => n * 10 + (c.toNat - 48)) 0

/-- Whether the size of a literal fits in 32 bits. -/
def sizeFits (size : List Char) : Bool := decimalValue size < UInt32.size

/-- How many characters belong to a fraction, if one begins here. -/
def fractionWidth : List Char → Nat
  | '.' :: c :: cs => if c.isDigit then 1 + ((c :: cs).takeWhile isDecimal).length else 0
  | _ => 0

/-- How many characters belong to an exponent, if one begins here. -/
def exponentWidth : List Char → Nat
  | [] => 0
  | mark :: cs =>
    if mark = 'e' || mark = 'E' then
      let sign := if cs.head? = some '+' || cs.head? = some '-' then 1 else 0
      1 + sign + ((cs.drop sign).takeWhile isDecimal).length
    else 0

/-- Whether a tick and a base letter begin here. -/
def beginsBased : List Char → Bool
  | '\'' :: c :: _ => isBaseLetter c
  | _ => false

/-- A literal that begins with a digit: sized if a base follows, perhaps after a gap, and otherwise
real or a plain integer. -/
def number (cs : List Char) : Piece :=
  let size := cs.takeWhile isDecimal
  let after := cs.drop size.length
  let gap := (after.takeWhile isGap).length
  if beginsBased (after.drop gap) then
    let (tail, hasBase) := basedTail (after.drop (gap + 1))
    { kind := some (if sizeFits size then .sizedLiteral else .error)
      width := size.length + gap + 1 + tail
      problems :=
        (if hasBase then [] else [.missingBase]) ++ (if sizeFits size then [] else [.wideSize]) }
  else
    let fraction := fractionWidth after
    let exponent := exponentWidth (after.drop fraction)
    { kind := some (if fraction + exponent = 0 then .intLiteral else .realLiteral)
      width := size.length + fraction + exponent }

/-- How many characters after the opening quote belong to a string, and whether it is closed. A
backslash takes the next character with it, whatever it is. -/
def stringTail : List Char → Nat × Bool
  | [] => (0, false)
  | ['\\'] => (1, false)
  | '\\' :: _ :: cs =>
    let (width, closed) := stringTail cs
    (width + 2, closed)
  | c :: cs =>
    if c = '"' then (1, true)
    else if c = '\n' || c = '\x00' then (0, false)
    else
      let (width, closed) := stringTail cs
      (width + 1, closed)

/-- How many characters after its opening belong to a block comment, and whether it is closed. -/
def commentTail : List Char → Nat × Bool
  | [] => (0, false)
  | c :: cs =>
    if c = '*' && cs.head? = some '/' then (2, true)
    else
      let (width, closed) := commentTail cs
      (width + 1, closed)

/-- The symbols, longer ones first. -/
def symbols : List (String × Kind) :=
  [("===", .tripleEquals), ("==?", .wildcardEq), ("!==", .bangDoubleEquals),
   ("!=?", .wildcardNeq), ("<<<", .tripleLess), (">>>", .tripleGreater),
   ("::", .colonColon), ("==", .doubleEquals), ("!=", .bangEquals), ("<<", .doubleLess),
   ("<=", .lessEquals), (">>", .doubleGreater), (">=", .greaterEquals), ("+:", .plusColon),
   ("-:", .minusColon), ("**", .doubleStar), ("&&", .doubleAmpersand), ("||", .doublePipe),
   ("^~", .tildeCaret), ("~^", .tildeCaret), ("~&", .tildeAmpersand), ("~|", .tildePipe),
   ("(", .leftParen), (")", .rightParen), ("[", .leftBracket), ("]", .rightBracket),
   ("\x7b", .leftBrace), ("\x7d", .rightBrace), (",", .comma), (";", .semicolon), (".", .dot),
   ("#", .hash), ("@", .atSign), ("'", .tick), ("?", .question), (":", .colon),
   ("=", .equals), ("!", .bang), ("<", .lessThan), (">", .greaterThan), ("+", .plus),
   ("-", .minus), ("*", .star), ("/", .slash), ("%", .percent), ("&", .ampersand),
   ("|", .pipe), ("^", .caret), ("~", .tilde)]

/-- The longest symbol a text begins with. An opening attribute bracket is not one if the text
begins with `(*)`, and a closing one only inside an attribute. -/
def symbol? (openBrackets : Nat) (cs : List Char) : Option (Kind × Nat) :=
  if "(*".toList.isPrefixOf cs && !"(*)".toList.isPrefixOf cs then some (.attrOpen, 2)
  else if "*)".toList.isPrefixOf cs && openBrackets > 0 then some (.attrClose, 2)
  else
    (symbols.find? fun (text, _) => text.toList.isPrefixOf cs).map fun (text, kind) =>
      (kind, text.length)

/-- Whether a fill literal ends with this character. -/
def isFill (c : Char) : Bool :=
  c = '0' || c = '1' || c.toLower = 'x' || c.toLower = 'z'

/-- The lexeme a text that begins with `c` begins with. -/
def ofCons (openBrackets : Nat) (c : Char) (cs : List Char) : Piece :=
  if isSpace c then { kind := none, width := ((c :: cs).takeWhile isSpace).length }
  else if c = '/' && cs.head? = some '/' then
    { kind := none, width := ((c :: cs).takeWhile (· ≠ '\n')).length }
  else if c = '/' && cs.head? = some '*' then
    let (tail, closed) := commentTail (cs.drop 1)
    { kind := none, width := 2 + tail, problems := if closed then [] else [.openComment] }
  else if c = '\x60' then
    { kind := none, width := ((c :: cs).takeWhile (· ≠ '\n')).length, problems := [.directive] }
  else if isNameStart c then
    let name := (c :: cs).takeWhile isNameChar
    { kind := some ((Kind.ofSpelling? (String.ofList name)).getD .identifier)
      width := name.length }
  else if c = '\\' then
    let tail := (cs.takeWhile fun d => !isSpace d).length
    if tail = 0 then { kind := some .error, width := 1, problems := [.emptyEscape] }
    else { kind := some .escapedIdentifier, width := 1 + tail }
  else if c = '$' then
    if cs.head?.any isNameStart then
      { kind := some .systemIdentifier, width := 1 + (cs.takeWhile isNameChar).length }
    else { kind := some .error, width := 1, problems := [.loneDollar] }
  else if c.isDigit then number (c :: cs)
  else if c = '\'' && cs.head?.any isBaseLetter then
    let (tail, hasBase) := basedTail cs
    { kind := some .sizedLiteral
      width := 1 + tail
      problems := if hasBase then [] else [.missingBase] }
  else if c = '\'' && cs.head?.any isFill then { kind := some .fillLiteral, width := 2 }
  else if c = '"' then
    let (tail, closed) := stringTail cs
    if closed then { kind := some .stringLiteral, width := 1 + tail }
    else { kind := some .error, width := 1 + tail, problems := [.openString] }
  else
    match symbol? openBrackets (c :: cs) with
    | some (kind, width) => { kind := some kind, width := width }
    | none => { kind := some .error, width := 1, problems := [.stray c] }

end Piece

/-- A piece of a source text at its place. -/
structure Lexeme where
  kind : Option Kind
  text : List Char
  start : Nat
  problems : List Problem

namespace Lexeme

def stop (l : Lexeme) : Nat := l.start + Text.byteLength l.text

/-- The open attribute brackets after a lexeme. -/
def bracketsAfter (openBrackets : Nat) : Option Kind → Nat
  | some .attrOpen => openBrackets + 1
  | some .attrClose => openBrackets - 1
  | _ => openBrackets

/-- The lexemes of a text that stands at `offset`, where the first `skip` characters belong to a
lexeme found before. -/
def scan : (skip offset openBrackets : Nat) → List Char → List Lexeme
  | _, _, _, [] => []
  | skip + 1, offset, openBrackets, c :: cs => scan skip (offset + c.utf8Size) openBrackets cs
  | 0, offset, openBrackets, c :: cs =>
    let piece := Piece.ofCons openBrackets c cs
    { kind := piece.kind
      text := (c :: cs).take piece.width
      start := offset
      problems := piece.problems } ::
    scan (piece.width - 1) (offset + c.utf8Size) (bracketsAfter openBrackets piece.kind) cs

/-- The lexemes of a whole text. -/
def ofText (cs : List Char) : List Lexeme := scan 0 0 0 cs

end Lexeme

end Netlist
