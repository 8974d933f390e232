import Netlist.Parser.Instantiation

/-!
Items of a unit body. A name followed by what an instantiation needs is parsed as one. Items that
begin with a reserved word, or with a name as a declaration does, are passed over as a whole: up to
their semicolon, or up to the end of the block they open. Anything else is an error.
-/
namespace Netlist.Parser

open Syntax

/-- What stands behind the bracket that closes the `depth` open ones, if it comes before the end. -/
def afterBalanced : (depth : Nat) → List Token → Option (List Token)
  | _, [] => none
  | depth, t :: ts =>
    match t.kind with
    | .leftParen | .leftBracket | .leftBrace => afterBalanced (depth + 1) ts
    | .rightParen | .rightBracket | .rightBrace =>
      if depth ≤ 1 then some ts else afterBalanced (depth - 1) ts
    | .eof => none
    | _ => afterBalanced depth ts

/-- The kind of the first token. -/
def headKind (ts : List Token) : Kind :=
  match ts with
  | t :: _ => t.kind
  | [] => .eof

/-- Whether a parenthesis opens after any number of bracketed dimensions. -/
def opensPorts : (bound : Nat) → List Token → Bool
  | 0, ts => headKind ts = .leftParen
  | bound + 1, ts =>
    if headKind ts = .leftBracket then
      match afterBalanced 0 ts with
      | some rest => opensPorts bound rest
      | none => false
    else headKind ts = .leftParen

/-- Whether an instance name and its parenthesis come first. -/
def namesInstance (ts : List Token) : Bool :=
  (headKind ts).isIdentifier && opensPorts ts.length ts.tail

/-- Whether the tokens after a name go on as in an instantiation. -/
def continuesInstantiation (ts : List Token) : Bool :=
  if headKind ts = .hash then
    if headKind ts.tail = .leftParen then
      match afterBalanced 0 ts.tail with
      | some rest => namesInstance rest
      | none => true
    else true
  else namesInstance ts

/-- What follows the name at the start of a declaration. -/
def continuesDeclaration : Kind → Bool
  | .identifier => true
  | .escapedIdentifier => true
  | .leftBracket => true
  | .colonColon => true
  | .hash => true
  | .dot => true
  | _ => false

/-- Whether an item that can be passed over begins here. -/
def Cursor.startsOtherItem (c : Cursor) : Bool :=
  let kind := c.current
  if kind.isIdentifier then continuesDeclaration (c.kindAt 1)
  else
    Kind.ofSpelling? c.currentText = some kind && !kind.closesBlock &&
      kind ≠ .word .elseWord && !kind.isUnitBoundary

/-- Whether a word that opens blocks only refers to one, for the token before it. -/
def isBlockReference : (before : Kind) → BlockStart → Bool
  | .word .wait, .forkBlock => true
  | .word .disable, .forkBlock => true
  | .word .assertWord, .property => true
  | .word .assertWord, .sequence => true
  | .word .assumeWord, .property => true
  | .word .assumeWord, .sequence => true
  | .word .cover, .property => true
  | .word .cover, .sequence => true
  | _, _ => false

/-- Words that introduce declarations without a body. -/
def isPrototype : Kind → Bool
  | .word .importWord => true
  | .word .exportWord => true
  | .word .externWord => true
  | .word .pureWord => true
  | .word .typedef => true
  | _ => false

/-- Passes over an item inside `nest` brackets and `blocks` blocks, at most `bound` tokens of it. An
item ends at a semicolon or with a block outside all others, unless `else` follows. -/
def passOver (prototype : Bool) : (bound nest blocks : Nat) → ParserM Unit
  | 0, _, _ => return
  | bound + 1, nest, blocks => do
    let c ← look
    let before ← demand .eof c.prevKind
    match c.current with
    | .eof => return
    | .unitStart _ => return
    | .unitEnd _ => return
    | .leftParen | .leftBracket | .leftBrace | .attrOpen =>
      take c.current
      passOver prototype bound (nest + 1) blocks
    | .rightParen | .rightBracket | .rightBrace | .attrClose =>
      take c.current
      passOver prototype bound (nest - 1) blocks
    | .semicolon =>
      take .semicolon
      if nest = 0 && blocks = 0 then
        if ← sees (.word .elseWord) then
          passOver prototype bound 0 0
      else
        passOver prototype bound nest blocks
    | .blockEnd word =>
      if blocks = 0 then
        return
      take (.blockEnd word)
      if blocks = 1 && nest = 0 then
        let _ ← endLabel?
        if ← sees (.word .elseWord) then
          passOver prototype bound 0 0
      else
        passOver prototype bound nest (blocks - 1)
    | .blockStart word =>
      take (.blockStart word)
      if prototype || isBlockReference before word then
        passOver prototype bound nest blocks
      else
        passOver prototype bound nest (blocks + 1)
    | kind =>
      take kind
      passOver prototype bound nest blocks

/-- Passes over the item that begins at `c`. -/
def skipItem (c : Cursor) : ParserM Unit := passOver (isPrototype c.current) c.rest.length 0 0

/-- Consumes the next token if none was consumed since `c`. -/
def takeSome (c : Cursor) : ParserM Unit := do
  if (← look).consumed = c.consumed then
    take c.current

/-- An item that cannot be understood, from `c` up to its semicolon. -/
def brokenItem (c : Cursor) : ParserM Item := do
  report .expectedInstantiation
  recoverToSemicolon
  -- A closing word of another kind of unit has to be consumed here.
  takeSome c
  return .error (← spanFrom c.currentSpan)

/-- The item that begins at `c`, other than an instantiation. -/
def otherItem (c : Cursor) : ParserM Item := do
  if c.startsOtherItem then
    skipItem c
    if (← look).consumed > c.consumed then
      return .skipped c.currentSpan (← spanFrom c.currentSpan)
  brokenItem c

/-- An instantiation, or an error where it has one. -/
def instantiationItem : ParserM Item := do
  let start ← currentSpan
  let errors := (← look).errors
  let stmt ← instantiation
  if (← look).errors > errors then
    return .error (← spanFrom start)
  else
    return .instantiation stmt

/-- The item that begins at `c`; a semicolon alone is none. -/
def item? (c : Cursor) : ParserM (Option Item) := do
  if ← eat .semicolon then
    return none
  if c.current.isIdentifier && continuesInstantiation c.rest.tail then
    some <$> instantiationItem
  else
    some <$> otherItem c

end Netlist.Parser
