import Netlist.Parser.State

/-!
Expressions, by operator precedence. An operand is read, then whatever binds to it at least as
tightly as asked; selects and dots bind tightest, and the conditional operator loosest. The parts
are written over the parser of their subexpressions, which takes the least power an operator needs.
-/
namespace Netlist.Parser

open Syntax

/-- One or more expressions between commas. -/
def expressionList (expr : Nat → ParserM Expr) : ParserM (List Expr) := do
  let first ← expr 0
  return first :: (← moreItems (expr 0))

/-- Arguments in parentheses. -/
def callArguments (expr : Nat → ParserM Expr) : ParserM (List Expr) := do
  expect .leftParen
  let args ← unlessAt .rightParen (expressionList expr)
  expect .rightParen
  return args.getD []

/-- A concatenation or a replication, from its opening brace on. -/
def braces (expr : Nat → ParserM Expr) : ParserM Expr := do
  let start ← currentSpan
  expect .leftBrace
  if ← eat .rightBrace then
    reportAt .emptyConcatenation (← spanFrom start)
    return .error start
  let first ← expr 0
  if ← eat .leftBrace then
    let elements ← expressionList expr
    expect .rightBrace
    expect .rightBrace
    return .replicate first elements (← spanFrom start)
  else
    let more ← moreItems (expr 0)
    expect .rightBrace
    return .concat (first :: more) (← spanFrom start)

/-- A name, perhaps inside a scope. -/
def scopedName : ParserM Expr := do
  let start ← currentSpan
  let first ← expectIdentifier
  if ← eat .colonColon then
    let inner ← expectIdentifier
    return .scoped first inner (← spanFrom start)
  else
    return .identifier first

/-- A name, perhaps inside a scope, perhaps called. -/
def nameOrCall (expr : Nat → ParserM Expr) : ParserM Expr := do
  let start ← currentSpan
  let name ← scopedName
  if ← sees .leftParen then
    let args ← callArguments expr
    return .call name args (← spanFrom start)
  else
    return name

/-- A system function, the next token of `c`, perhaps called. -/
def systemCall (expr : Nat → ParserM Expr) (c : Cursor) : ParserM Expr := do
  let name ← nameAt c
  let args ← whenAt .leftParen (callArguments expr)
  return .systemCall name (args.getD []) (← spanFrom c.currentSpan)

/-- The tokens that close or separate, left for what surrounds the expression. -/
def endsExpression : Kind → Bool
  | .rightParen => true
  | .rightBracket => true
  | .rightBrace => true
  | .comma => true
  | .semicolon => true
  | _ => false

/-- Anything that is no operand. -/
def noOperand : ParserM Expr := do
  let c ← look
  reportAt .expectedExpression c.currentSpan
  unless endsExpression c.current do
    take c.current
  return .error c.currentSpan

/-- An operand with the operators before it. -/
def operand (expr : Nat → ParserM Expr) : ParserM Expr := do
  let c ← look
  let start := c.currentSpan
  match c.current.unaryOp? with
  | some op =>
    take c.current
    let inner ← expr UnaryOp.power
    return .unary op inner (← merge start inner.span)
  | none =>
    match c.current with
    | .intLiteral | .sizedLiteral | .fillLiteral =>
      take c.current
      return .literal start
    | .realLiteral =>
      take .realLiteral
      return .realLiteral start
    | .stringLiteral =>
      take .stringLiteral
      return .stringLiteral start
    | .error =>
      -- The problem has been reported with the lexeme.
      take .error
      return .error start
    | .leftParen =>
      take .leftParen
      let inner ← expr 0
      expect .rightParen
      return .paren inner (← spanFrom start)
    | .leftBrace => braces expr
    | .systemIdentifier => systemCall expr c
    | .identifier | .escapedIdentifier => nameOrCall expr
    | _ => noOperand

/-- A select of `base`, from its opening bracket on. -/
def selectOf (expr : Nat → ParserM Expr) (base : Expr) : ParserM Expr := do
  expect .leftBracket
  let first ← expr 0
  match ← current with
  | .plusColon =>
    take .plusColon
    let width ← expr 0
    expect .rightBracket
    return .partSelect base first true width (← spanFrom base.span)
  | .minusColon =>
    take .minusColon
    let width ← expr 0
    expect .rightBracket
    return .partSelect base first false width (← spanFrom base.span)
  | .colon =>
    take .colon
    let lsb ← expr 0
    expect .rightBracket
    return .rangeSelect base first lsb (← spanFrom base.span)
  | _ =>
    expect .rightBracket
    return .index base first (← spanFrom base.span)

/-- One name after a dot. -/
def dottedName : ParserM Identifier := do
  take .dot
  expectIdentifier

/-- The names joined by dots to `base`, which must itself be made of names. -/
def memberOf (base : Expr) : ParserM Expr := do
  match base with
  | .identifier first =>
    let more ← itemsAt .dot dottedName
    return .hierarchical (first :: more) (← spanFrom base.span)
  | .hierarchical parts _ =>
    let more ← itemsAt .dot dottedName
    return .hierarchical (parts ++ more) (← spanFrom base.span)
  | _ =>
    report .namelessReference
    let _ ← dottedName
    return base

/-- Extends `left` by what binds to it with at least the power `least`, at most `bound` times. -/
def extend (expr : Nat → ParserM Expr) (least : Nat) : (bound : Nat) → Expr → ParserM Expr
  | 0, left => return left
  | bound + 1, left => do
    match ← current with
    | .question =>
      if least = 0 then
        take .question
        let thenExpr ← expr 0
        expect .colon
        let elseExpr ← expr 0
        let span ← merge left.span elseExpr.span
        extend expr least bound (.ternary left thenExpr elseExpr span)
      else
        return left
    | .leftBracket => extend expr least bound (← selectOf expr left)
    | .dot => extend expr least bound (← memberOf left)
    | kind =>
      match kind.binaryOp? with
      | none => return left
      | some op =>
        if op.leftPower < least then
          return left
        else
          take kind
          let right ← expr op.rightPower
          let span ← merge left.span right.span
          extend expr least bound (.binary left op right span)

/-- An expression whose operators have at least the power `least`, nested at most `bound` deep. -/
def expressionWithin : (bound least : Nat) → ParserM Expr
  | 0, _ => noOperand
  | bound + 1, least => do
    let left ← operand (expressionWithin bound)
    extend (expressionWithin bound) least bound left

/-- An expression. Each level of nesting consumes a token, so the tokens left bound the depth. -/
def expression : ParserM Expr := do
  expressionWithin ((← remaining) + 1) 0

end Netlist.Parser
