import Netlist.Token.Reserved

/-!
Token kinds, their names in messages, and the table of reserved words.
-/
namespace Netlist

inductive Kind where
  /-- One of the words that open a unit. -/
  | unitStart (unit : UnitKind)
  /-- The word that closes a unit. -/
  | unitEnd (unit : UnitKind)
  | dataType (type : BuiltinType)
  | signing (signing : Signing)
  | blockStart (word : BlockStart)
  | blockEnd (word : BlockEnd)
  | word (word : Word)
  | intLiteral
  | sizedLiteral
  /-- A tick and one of `0`, `1`, `x` and `z`. -/
  | fillLiteral
  | realLiteral
  | stringLiteral
  | leftParen
  | rightParen
  | leftBracket
  | rightBracket
  | leftBrace
  | rightBrace
  /-- The bracket `(*`, which opens an attribute. -/
  | attrOpen
  /-- The bracket `*)`, which closes an attribute. -/
  | attrClose
  | comma
  | semicolon
  | colon
  | colonColon
  | dot
  | hash
  | atSign
  /-- A tick that begins no literal. -/
  | tick
  | question
  | equals
  | doubleEquals
  | bangEquals
  | tripleEquals
  | bangDoubleEquals
  | wildcardEq
  | wildcardNeq
  | lessThan
  | lessEquals
  | greaterThan
  | greaterEquals
  | plus
  | minus
  | star
  | doubleStar
  | slash
  | percent
  | ampersand
  | doubleAmpersand
  | pipe
  | doublePipe
  | caret
  | tildeCaret
  | tilde
  | tildeAmpersand
  | tildePipe
  | bang
  | doubleLess
  | doubleGreater
  | tripleLess
  | tripleGreater
  | plusColon
  | minusColon
  | identifier
  | escapedIdentifier
  | systemIdentifier
  | eof
  | error
  deriving DecidableEq

namespace Kind

/-- The kinds of the reserved words. -/
def reserved : List Kind :=
  UnitKind.all.map .unitStart ++ UnitKind.all.map .unitEnd ++ BuiltinType.all.map .dataType ++
    Signing.all.map .signing ++ BlockStart.all.map .blockStart ++ BlockEnd.all.map .blockEnd ++
    Word.all.map .word

/-- The kinds that are no reserved words. -/
def unreserved : List Kind :=
  [.intLiteral, .sizedLiteral, .fillLiteral, .realLiteral, .stringLiteral, .leftParen,
   .rightParen, .leftBracket, .rightBracket, .leftBrace, .rightBrace, .attrOpen, .attrClose,
   .comma, .semicolon, .colon, .colonColon, .dot, .hash, .atSign, .tick, .question, .equals,
   .doubleEquals, .bangEquals, .tripleEquals, .bangDoubleEquals, .wildcardEq, .wildcardNeq,
   .lessThan, .lessEquals, .greaterThan, .greaterEquals, .plus, .minus, .star, .doubleStar,
   .slash, .percent, .ampersand, .doubleAmpersand, .pipe, .doublePipe, .caret, .tildeCaret,
   .tilde, .tildeAmpersand, .tildePipe, .bang, .doubleLess, .doubleGreater, .tripleLess,
   .tripleGreater, .plusColon, .minusColon, .identifier, .escapedIdentifier, .systemIdentifier,
   .eof, .error]

def all : List Kind := reserved ++ unreserved

/-- The spelling of a reserved word. -/
def spelling? : Kind → Option String
  | .unitStart u => some u.text
  | .unitEnd u => some ("end" ++ u.text)
  | .dataType t => some t.text
  | .signing s => some s.text
  | .blockStart w => some w.text
  | .blockEnd w => some w.text
  | .word w => some w.text
  | _ => none

/-- The reserved word with this spelling. -/
def ofSpelling? (text : String) : Option Kind :=
  reserved.find? (·.spelling? == some text)

/-- The text with its first letter and every letter after a low line raised, low lines dropped. -/
def raised : List Char → Bool → List Char
  | [], _ => []
  | '_' :: cs, _ => raised cs true
  | c :: cs, up => (if up then c.toUpper else c) :: raised cs false

/-- The name of a kind in messages. A reserved word is named by its spelling, each part raised. -/
def name : Kind → String
  | .unitStart u => String.ofList (raised u.text.toList true)
  | .unitEnd u => "End" ++ u.text
  | .dataType t => String.ofList (raised t.text.toList true)
  | .signing s => String.ofList (raised s.text.toList true)
  | .blockStart w => String.ofList (raised w.text.toList true)
  | .blockEnd w => String.ofList (raised w.text.toList true)
  | .word w => String.ofList (raised w.text.toList true)
  | .intLiteral => "IntLiteral"
  | .sizedLiteral => "SizedLiteral"
  | .fillLiteral => "UnbasedUnsizedLiteral"
  | .realLiteral => "RealLiteral"
  | .stringLiteral => "StringLiteral"
  | .leftParen => "LeftParen"
  | .rightParen => "RightParen"
  | .leftBracket => "LeftBracket"
  | .rightBracket => "RightBracket"
  | .leftBrace => "LeftBrace"
  | .rightBrace => "RightBrace"
  | .attrOpen => "AttrOpen"
  | .attrClose => "AttrClose"
  | .comma => "Comma"
  | .semicolon => "Semicolon"
  | .colon => "Colon"
  | .colonColon => "ColonColon"
  | .dot => "Dot"
  | .hash => "Hash"
  | .atSign => "At"
  | .tick => "Tick"
  | .question => "Question"
  | .equals => "Equals"
  | .doubleEquals => "DoubleEquals"
  | .bangEquals => "BangEquals"
  | .tripleEquals => "TripleEquals"
  | .bangDoubleEquals => "BangDoubleEquals"
  | .wildcardEq => "WildcardEq"
  | .wildcardNeq => "WildcardNeq"
  | .lessThan => "LessThan"
  | .lessEquals => "LessEquals"
  | .greaterThan => "GreaterThan"
  | .greaterEquals => "GreaterEquals"
  | .plus => "Plus"
  | .minus => "Minus"
  | .star => "Star"
  | .doubleStar => "DoubleStar"
  | .slash => "Slash"
  | .percent => "Percent"
  | .ampersand => "Ampersand"
  | .doubleAmpersand => "DoubleAmpersand"
  | .pipe => "Pipe"
  | .doublePipe => "DoublePipe"
  | .caret => "Caret"
  | .tildeCaret => "TildeCaret"
  | .tilde => "Tilde"
  | .tildeAmpersand => "TildeAmpersand"
  | .tildePipe => "TildePipe"
  | .bang => "Bang"
  | .doubleLess => "DoubleLess"
  | .doubleGreater => "DoubleGreater"
  | .tripleLess => "TripleLess"
  | .tripleGreater => "TripleGreater"
  | .plusColon => "PlusColon"
  | .minusColon => "MinusColon"
  | .identifier => "Identifier"
  | .escapedIdentifier => "EscapedIdentifier"
  | .systemIdentifier => "SystemIdentifier"
  | .eof => "Eof"
  | .error => "Error"

def ofName? (name : String) : Option Kind := all.find? (·.name == name)

def isBuiltinType : Kind → Bool
  | .dataType _ => true
  | _ => false

def opensBlock : Kind → Bool
  | .blockStart _ => true
  | _ => false

def closesBlock : Kind → Bool
  | .blockEnd _ => true
  | _ => false

def isUnitStart : Kind → Bool
  | .unitStart _ => true
  | _ => false

/-- The words that open or close a design unit. -/
def isUnitBoundary : Kind → Bool
  | .unitStart _ => true
  | .unitEnd _ => true
  | _ => false

/-- Plain and escaped identifiers are names. -/
def isIdentifier : Kind → Bool
  | .identifier => true
  | .escapedIdentifier => true
  | _ => false

end Kind

end Netlist
