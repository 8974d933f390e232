import Netlist.Parser.Item

/-!
Design units and whole files. The header of a unit is passed over; its body ends at the closing
word of its kind, at the next unit or at the end of the text.
-/
namespace Netlist.Parser

open Syntax

/-- The items of a body of the given kind of unit, at most `bound` of them. -/
def itemsWithin (kind : UnitKind) : (bound : Nat) → ParserM (List Item)
  | 0 => return []
  | bound + 1 => do
    let c ← look
    if c.current = .unitEnd kind || c.current = .eof || c.current.isUnitStart then
      return []
    let first ← item? c
    let rest ← itemsWithin kind bound
    return first.toList ++ rest

/-- What stands behind the opening word of a unit: its name, its items and the label at its end. -/
def unitBody (kind : UnitKind) : ParserM (Identifier × List Item × Option Identifier) := do
  let name ← expectIdentifier
  recoverToSemicolon
  let items ← itemsWithin kind (← remaining)
  expect (.unitEnd kind)
  let endLabel ← endLabel?
  return (name, items, endLabel)

/-- A unit of the given kind, from its opening word on. -/
def designUnit (kind : UnitKind) : ParserM DesignUnit := do
  let start ← currentSpan
  take (.unitStart kind)
  let (name, items, endLabel) ← unitBody kind
  return ⟨kind, name, items, endLabel, ← spanFrom start⟩

/-- The units that follow, at most `bound` of them; what stands between them is reported. -/
def unitsWithin : (bound : Nat) → ParserM (List DesignUnit)
  | 0 => return []
  | bound + 1 => do
    match ← current with
    | .eof => return []
    | .unitStart kind =>
      let first ← designUnit kind
      return first :: (← unitsWithin bound)
    | _ =>
      report .expectedUnit
      skipUntil Kind.isUnitStart
      unitsWithin bound

/-- A whole file. -/
def sourceText : ParserM SourceText := do
  let start ← currentSpan
  let consumed := (← look).consumed
  let units ← unitsWithin (← remaining)
  return ⟨units, ← spanSince start consumed⟩

/-- Lexes a text and starts a parse of it. -/
def start (file : Nat) (source : String) (session : Session) : State :=
  let (tokens, problems) := lex file source
  { file := file, rest := tokens, session := session.emitAll problems }

/-- Lexes a text that is the file `file`, then parses it with `parser`. -/
def parsingText {α : Type} (parser : ParserM α) (file : Nat) (source : String) : SessionM α := do
  let (tokens, problems) := lex file source
  Task.emitAll problems
  let (a, c) ← parser.task { file := file, rest := tokens }
  match c.misuse with
  | none => return a
  | some m => throw m

/-- The same for a file of the session. -/
def parsing {α : Type} (parser : ParserM α) (sources : Sources) (file : Nat) : SessionM α := do
  let f ← SessionM.ofExcept (sources.file file)
  parsingText parser file f.content

/-- Parses a file of the session. -/
def parseFile (sources : Sources) (file : Nat) (session : Session) :
    Except Misuse (SourceText × Session) :=
  let (result, after) := (parsing sourceText sources file).run.run session
  result.map fun text => (text, after)

/-- One statement and nothing after it. -/
def soleInstantiation : ParserM Instantiation := do
  let stmt ← instantiation
  unless ← sees .eof do
    report .trailingTokens
  return stmt

/-- Parses a file that holds one statement; there is none if an error was reported. -/
def parseInstantiation (sources : Sources) (file : Nat) (session : Session) :
    Except Misuse (Option Instantiation × Session) :=
  let (result, after) := (parsing soleInstantiation sources file).run.run session
  result.map fun stmt =>
    (if after.log.errors = session.log.errors then some stmt else none, after)

end Netlist.Parser
