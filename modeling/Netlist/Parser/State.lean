import Netlist.Session
import Netlist.Source.Sources
import Netlist.Syntax.Tree
import Netlist.Token.Basic

/-!
The state of a parse: the tokens not yet consumed, the one consumed last, and the session. The
token at the end of a text is never consumed, and reading past the last token reads such a token.
All spans made by one parse lie in its file. A parser is a program whose calls look at the tokens
ahead, consume some of them, report an error or enter a name.
-/
namespace Netlist.Parser

open Syntax

/-- What can be wrong with a sequence of tokens. -/
inductive SyntaxError where
  | expected (kind found : Kind)
  | expectedName (found : Kind)
  | expectedSemicolon (found : Kind)
  | expectedPorts (found : Kind)
  | expectedUnit
  | expectedInstantiation
  | expectedExpression
  | emptyConcatenation
  /-- Only names can be joined by dots. -/
  | namelessReference
  | missingInstanceName
  | mixedParams
  | mixedPorts
  | trailingTokens

def SyntaxError.message : SyntaxError → String
  | .expected kind found => "expected " ++ kind.name ++ ", found " ++ found.name
  | .expectedName found => "expected identifier, found " ++ found.name
  | .expectedSemicolon found => "expected ';', found " ++ found.name
  | .expectedPorts found => "expected '(' after instance name, found " ++ found.name
  | .expectedUnit => "expected 'module', 'interface', or 'program'"
  | .expectedInstantiation => "expected module instantiation"
  | .expectedExpression => "expected expression"
  | .emptyConcatenation => "empty concatenation"
  | .namelessReference => "hierarchical reference must start with a name"
  | .missingInstanceName => "missing instance name"
  | .mixedParams => "cannot mix ordered and named parameter assignments"
  | .mixedPorts => "cannot mix ordered and named port connections"
  | .trailingTokens => "unexpected tokens after instantiation"

/-- The code of syntax errors. -/
def SyntaxError.code : Code := ⟨.error, 101⟩

def SyntaxError.diagnostic (e : SyntaxError) (span : Span) : Diagnostic where
  severity := .error
  code := SyntaxError.code
  message := e.message
  span := span

/-- Where a parse stands. -/
structure Cursor where
  file : Nat
  prev : Option Token := none
  rest : List Token
  /-- How many tokens have been consumed. -/
  consumed : Nat := 0
  /-- How many errors this parse has reported. -/
  errors : Nat := 0
  /-- The first request that could not be met. -/
  misuse : Option Misuse := none

structure State extends Cursor where
  session : Session := {}

namespace Cursor

def kindAt (c : Cursor) (n : Nat) : Kind :=
  match c.rest[n]? with
  | some t => t.kind
  | none => .eof

def current (c : Cursor) : Kind := c.kindAt 0

/-- The span of the next token, or of the last one if there is none left. -/
def currentSpan (c : Cursor) : Span :=
  match c.rest.head?.or c.prev with
  | some t => t.span c.file
  | none => ⟨c.file, 0, 0⟩

def currentText (c : Cursor) : String :=
  match c.rest with
  | t :: _ => t.text
  | [] => ""

/-- The token consumed last; at the start there is none. -/
def prevToken (c : Cursor) : Except Misuse (Option Token) :=
  if c.consumed = 0 then .ok none
  else
    match c.prev with
    | some t => .ok (some t)
    | none => .error (.noToken (c.consumed - 1))

/-- The span of the token consumed last. -/
def prevSpan (c : Cursor) : Except Misuse Span :=
  c.prevToken.map fun
    | some t => t.span c.file
    | none => c.currentSpan

def prevKind (c : Cursor) : Except Misuse Kind :=
  c.prevToken.map fun
    | some t => t.kind
    | none => .eof

def advance (c : Cursor) : Cursor :=
  match c.rest with
  | [] => c
  | t :: ts =>
    if t.kind = .eof then c
    else { c with prev := some t, rest := ts, consumed := c.consumed + 1 }

/-- Consumes tokens up to the first for which `stop` holds, or to the end. -/
def skipUntil (stop : Kind → Bool) (c : Cursor) : Cursor :=
  let passes := fun (t : Token) => t.kind ≠ .eof && !stop t.kind
  let passed := c.rest.takeWhile passes
  { c with
    prev := passed.getLast?.or c.prev
    rest := c.rest.dropWhile passes
    consumed := c.consumed + passed.length }

end Cursor

/-- What a parser can do. -/
inductive Move : Type → Type where
  | look : Move Cursor
  /-- Consumes the next token if it has this kind, and tells whether it had. -/
  | eat (kind : Kind) : Move Bool
  | skipUntil (stop : Kind → Bool) : Move Unit
  | report (e : SyntaxError) (span : Span) : Move Unit
  | intern (text : String) : Move Nat
  | misuse (m : Misuse) : Move Unit

def Move.exec {α : Type} : Move α → Cursor → Task (α × Cursor)
  | .look, c => return (c, c)
  | .eat kind, c => return if c.current = kind then (true, c.advance) else (false, c)
  | .skipUntil stop, c => return ((), c.skipUntil stop)
  | .report e span, c => do
    Task.emit (e.diagnostic span)
    return ((), { c with errors := c.errors + 1 })
  | .intern text, c => do
    let index ← Task.intern text
    return (index, c)
  | .misuse m, c => return ((), { c with misuse := c.misuse.or (some m) })

abbrev ParserM := Program Move

namespace ParserM

/-- A parse from a cursor on, as work on the session. -/
def task {α : Type} (x : ParserM α) (c : Cursor) : Task (α × Cursor) :=
  Program.through Move.exec x c

def run {α : Type} (x : ParserM α) (st : State) : α × State :=
  let ((a, c), session) := (x.task st.toCursor).run st.session
  (a, { c with session := session })

end ParserM

def look : ParserM Cursor := .call .look

def eat (kind : Kind) : ParserM Bool := .call (.eat kind)

def skipUntil (stop : Kind → Bool) : ParserM Unit := .call (.skipUntil stop)

def reportAt (e : SyntaxError) (span : Span) : ParserM Unit := .call (.report e span)

def intern (text : String) : ParserM Nat := .call (.intern text)

/-- A value that has to be there; what the parse goes on with otherwise is of no account. -/
def demand {α : Type} (otherwise : α) : Except Misuse α → ParserM α
  | .ok a => return a
  | .error m => do
    Program.call (.misuse m)
    return otherwise

/-- Consumes the next token, which has this kind. -/
def take (kind : Kind) : ParserM Unit := do
  let _ ← eat kind

def current : ParserM Kind := return (← look).current

def currentSpan : ParserM Span := return (← look).currentSpan

def prevSpan : ParserM Span := do
  let c ← look
  demand c.currentSpan c.prevSpan

/-- A bound on the tokens that can still be consumed. -/
def remaining : ParserM Nat := return (← look).rest.length

/-- Whether the next token has this kind. -/
def sees (kind : Kind) : ParserM Bool := return (← look).current = kind

/-- The smallest span over two spans of the file. -/
def merge (a b : Span) : ParserM Span := demand (a.cover b) (a.merge b)

/-- From the start of `start` to the token consumed last. -/
def spanFrom (start : Span) : ParserM Span := do merge start (← prevSpan)

/-- The same if a token was consumed since `consumed` of them were, and else the empty span at
`start`. -/
def spanSince (start : Span) (consumed : Nat) : ParserM Span := do
  if (← look).consumed > consumed then spanFrom start else return start.atStart

def report (e : SyntaxError) : ParserM Unit := do reportAt e (← currentSpan)

/-- Consumes a token of this kind, or reports that there is none. -/
def expect (kind : Kind) : ParserM Unit := do
  unless ← eat kind do
    report (.expected kind (← current))

/-- The next token of `c` as a name; the token is consumed. -/
def nameAt (c : Cursor) : ParserM Identifier := do
  let name ← intern c.currentText
  take c.current
  return ⟨name, c.currentSpan⟩

/-- What stands for a name that is not there. -/
def placeholder : ParserM Identifier := do
  let name ← intern "<missing>"
  return ⟨name, (← currentSpan).atStart⟩

/-- A name, or the report of what `missing` says about the token in its place. -/
def nameOr (missing : Kind → SyntaxError) : ParserM Identifier := do
  let c ← look
  if c.current.isIdentifier then
    nameAt c
  else
    report (missing c.current)
    placeholder

def expectIdentifier : ParserM Identifier := nameOr .expectedName

/-- What `x` gives if the next token has this kind. -/
def whenAt {α : Type} (kind : Kind) (x : ParserM α) : ParserM (Option α) := do
  if ← sees kind then some <$> x else return none

/-- What `x` gives unless the next token has this kind. -/
def unlessAt {α : Type} (kind : Kind) (x : ParserM α) : ParserM (Option α) := do
  if ← sees kind then return none else some <$> x

/-- What `x` gives behind a token of this kind. -/
def after {α : Type} (kind : Kind) (x : ParserM α) : ParserM (Option α) := do
  if ← eat kind then some <$> x else return none

/-- A name behind a colon. -/
def endLabel? : ParserM (Option Identifier) := after .colon expectIdentifier

/-- Skips to the next semicolon and consumes it, but stops before a word that opens or closes a
unit. -/
def recoverToSemicolon : ParserM Unit := do
  skipUntil fun kind => kind = .semicolon || kind.isUnitBoundary
  let _ ← eat .semicolon

/-- Items after commas, at most as many as `bound`. -/
def commaItems {α : Type} (item : ParserM α) : (bound : Nat) → ParserM (List α)
  | 0 => return []
  | bound + 1 => do
    if ← eat .comma then
      let first ← item
      return first :: (← commaItems item bound)
    else
      return []

/-- All items that follow, each after a comma. -/
def moreItems {α : Type} (item : ParserM α) : ParserM (List α) := do
  commaItems item (← remaining)

/-- Items as long as one begins with a token of this kind, at most as many as `bound`. -/
def itemsWhile {α : Type} (kind : Kind) (item : ParserM α) : (bound : Nat) → ParserM (List α)
  | 0 => return []
  | bound + 1 => do
    if ← sees kind then
      let first ← item
      return first :: (← itemsWhile kind item bound)
    else
      return []

/-- All items that follow, as long as one begins with a token of this kind. -/
def itemsAt {α : Type} (kind : Kind) (item : ParserM α) : ParserM (List α) := do
  itemsWhile kind item (← remaining)

end Netlist.Parser
