import Netlist.Parser.Expression

/-!
Instantiation statements: a module name, a parameter clause, and instances with their ports. The
first item of a parameter or port list decides whether the list is ordered or named; later items of
the other form are reported once the list has been read, and dropped.
-/
namespace Netlist.Parser

open Syntax

/-- Bounds in brackets, from the opening one on. -/
def packedRange : ParserM Range := do
  let start ← currentSpan
  take .leftBracket
  let msb ← expression
  expect .colon
  let lsb ← expression
  expect .rightBracket
  return ⟨msb, lsb, ← spanFrom start⟩

def signingHere : ParserM (Option (Signing × Span)) := do
  match ← current with
  | .signing s =>
    let span ← currentSpan
    take (.signing s)
    return some (s, span)
  | _ => return none

/-- A data type whose keyword is the next token. -/
def dataTypeOf (kind : BuiltinType) : ParserM DataType := do
  let start ← currentSpan
  take (.dataType kind)
  let signing ← signingHere
  let packed ← itemsAt .leftBracket packedRange
  return ⟨kind, signing, packed, ← spanFrom start⟩

def paramValue : ParserM ParamValue := do
  match ← current with
  | .dataType kind => return .dataType (← dataTypeOf kind)
  | _ => return .expr (← expression)

/-- An item of a parameter list before the form of the list is known. -/
inductive ParamItem where
  | ordered (value : ParamValue)
  | named (item : NamedParam)

namespace ParamItem

def ordered? : ParamItem → Option ParamValue
  | .ordered value => some value
  | .named _ => none

def named? : ParamItem → Option NamedParam
  | .ordered _ => none
  | .named item => some item

end ParamItem

def paramItem : ParserM ParamItem := do
  let start ← currentSpan
  if ← eat .dot then
    let name ← expectIdentifier
    expect .leftParen
    let value ← unlessAt .rightParen paramValue
    expect .rightParen
    return .named ⟨name, value, ← spanFrom start⟩
  else
    return .ordered (← paramValue)

/-- The items of the wanted form; each other one is reported at its span. -/
def keepForm {α β : Type} (form : α → Option β) (e : SyntaxError) :
    List (α × Span) → ParserM (List β)
  | [] => return []
  | (item, span) :: rest => do
    match form item with
    | some kept => return kept :: (← keepForm form e rest)
    | none =>
      reportAt e span
      keepForm form e rest

def paramItemWithSpan : ParserM (ParamItem × Span) := do
  let span ← currentSpan
  return (← paramItem, span)

def paramList : ParserM ParamList := do
  let first ← paramItem
  let rest ← moreItems paramItemWithSpan
  match first with
  | .ordered value => return .ordered (value :: (← keepForm ParamItem.ordered? .mixedParams rest))
  | .named item => return .named (item :: (← keepForm ParamItem.named? .mixedParams rest))

def paramClause : ParserM ParamClause := do
  let start ← currentSpan
  expect .hash
  expect .leftParen
  let list ← unlessAt .rightParen paramList
  expect .rightParen
  return ⟨list, ← spanFrom start⟩

def attributeSpec : ParserM AttributeSpec := do
  let start ← currentSpan
  let name ← expectIdentifier
  let value ← after .equals expression
  return ⟨name, value, ← spanFrom start⟩

/-- An attribute, from its opening bracket on. -/
def attributeGroup : ParserM Attribute := do
  let start ← currentSpan
  take .attrOpen
  let first ← attributeSpec
  let more ← moreItems attributeSpec
  expect .attrClose
  return ⟨first :: more, ← spanFrom start⟩

/-- An item of a port list before the form of the list is known. -/
inductive PortItem where
  | ordered (port : OrderedPort)
  | named (port : NamedPort)

namespace PortItem

def ordered? : PortItem → Option OrderedPort
  | .ordered port => some port
  | .named _ => none

def named? : PortItem → Option NamedPort
  | .ordered _ => none
  | .named port => some port

def withSpan : PortItem → PortItem × Span
  | .ordered port => (.ordered port, port.span)
  | .named port => (.named port, port.span)

end PortItem

/-- What stands after the dot of a named connection. -/
def portTarget : ParserM PortTarget := do
  if ← eat .star then
    return .wildcard
  let name ← expectIdentifier
  if ← eat .leftParen then
    let actual ← unlessAt .rightParen expression
    expect .rightParen
    return .port name actual
  else
    return .port name none

def portItem : ParserM PortItem := do
  let start ← currentSpan
  let consumed := (← look).consumed
  let attributes ← itemsAt .attrOpen attributeGroup
  if ← eat .dot then
    let target ← portTarget
    return .named ⟨attributes, target, ← spanFrom start⟩
  let expr ← unlessAt .comma (unlessAt .rightParen expression)
  return .ordered ⟨attributes, expr.join, ← spanSince start consumed⟩

/-- What stands between the parentheses of an instance. -/
def portList : ParserM PortList := do
  if ← sees .rightParen then
    return .ordered []
  let first ← portItem
  let rest ← moreItems portItem
  let rest := rest.map PortItem.withSpan
  match first with
  | .ordered port => return .ordered (port :: (← keepForm PortItem.ordered? .mixedPorts rest))
  | .named port => return .named (port :: (← keepForm PortItem.named? .mixedPorts rest))

/-- A dimension of an instance array, from its opening bracket on. -/
def dimension : ParserM Dimension := do
  let start ← currentSpan
  take .leftBracket
  let first ← expression
  if ← eat .colon then
    let lsb ← expression
    expect .rightBracket
    return .range ⟨first, lsb, ← spanFrom start⟩
  else
    expect .rightBracket
    return .size first (← spanFrom start)

def instanceName : ParserM InstanceName := do
  let start ← currentSpan
  let consumed := (← look).consumed
  let name ← nameOr fun _ => .missingInstanceName
  let dimensions ← itemsAt .leftBracket dimension
  return ⟨name, dimensions, ← spanSince start consumed⟩

/-- The ports of an instance in their parentheses. -/
def connections : ParserM PortList := do
  if ← eat .leftParen then
    let ports ← portList
    expect .rightParen
    return ports
  else
    report (.expectedPorts (← current))
    return .ordered []

def hierarchicalInstance : ParserM Instance := do
  let start ← currentSpan
  let name ← instanceName
  let ports ← connections
  return ⟨name, ports, ← spanFrom start⟩

/-- The end of a statement. After an error the rest of it is skipped up to its semicolon. -/
def endOfStatement : ParserM Unit := do
  unless ← eat .semicolon do
    report (.expectedSemicolon (← current))
    recoverToSemicolon

/-- A whole statement. -/
def instantiation : ParserM Instantiation := do
  let start ← currentSpan
  let module ← expectIdentifier
  let params ← whenAt .hash paramClause
  let first ← hierarchicalInstance
  let more ← moreItems hierarchicalInstance
  endOfStatement
  return ⟨module, params, first :: more, ← spanFrom start⟩

end Netlist.Parser
