import Netlist.Design.Tree
import Netlist.Session
import Netlist.Source.Sources
import Netlist.Syntax.Tree

/-!
Lowering turns syntax trees into design trees. It stops at a fault, a tree that cannot be given a
meaning, and notes constructs it leaves out. Names entered and diagnostics emitted before it stops
are kept.
-/
namespace Netlist.Lowering

/-- How constructs that are left out are reported. -/
inductive NoticeLevel where
  | warning
  | note
  deriving DecidableEq

namespace NoticeLevel

def all : List NoticeLevel := [.warning, .note]

def text : NoticeLevel → String
  | .warning => "warning"
  | .note => "note"

def severity : NoticeLevel → Severity
  | .warning => .warning
  | .note => .note

end NoticeLevel

/-- The parts of a syntax tree that can be malformed. -/
inductive Part where
  | expression
  | hierarchicalName
  | numberLiteral
  | moduleItem
  deriving DecidableEq

def Part.text : Part → String
  | .expression => "expression"
  | .hierarchicalName => "hierarchical name"
  | .numberLiteral => "number literal"
  | .moduleItem => "module item"

inductive Fault where
  | malformed (part : Part) (span : Span)
  /-- A statement without instances. -/
  | noInstances (span : Span)
  deriving DecidableEq

namespace Fault

def span : Fault → Span
  | .malformed _ span => span
  | .noInstances span => span

def message : Fault → String
  | .malformed part _ => "malformed syntax tree: " ++ part.text
  | .noInstances _ => "instantiation has no instances"

def diagnostic : Fault → Diagnostic
  | .malformed part span =>
    { severity := .error
      code := ⟨.error, 300⟩
      message := message (.malformed part span)
      span := span
      notes := ["the statement was skipped; fix the syntax error reported for it first"] }
  | .noInstances span =>
    { severity := .error
      code := ⟨.error, 301⟩
      message := message (.noInstances span)
      span := span }

end Fault

/-- What lowering reads: the files the trees were parsed from, and the level of notices. -/
structure Context where
  sources : Sources
  level : NoticeLevel := .warning

export Netlist (SessionM)

/-- Lowering of what can have faults. -/
abbrev LowerM := ExceptT Fault SessionM

def fail {α : Type} (f : Fault) : LowerM α := throw f

def emit (d : Diagnostic) : SessionM Unit := Task.emit d

def intern (text : String) : SessionM Nat := Task.intern text

def resolve (index : Nat) : SessionM String := ExceptT.mk (Task.resolve index)

def snippet (ctx : Context) (span : Span) : SessionM String :=
  SessionM.ofExcept (ctx.sources.snippet span)

/-- The notice that a construct is left out. -/
def noticeOf (level : NoticeLevel) (label : String) (span : Span) : Diagnostic where
  severity := level.severity
  code := ⟨.warning, 300⟩
  message := "construct not implemented: " ++ label
  span := span

def notice (ctx : Context) (label : String) (span : Span) : SessionM Unit :=
  emit (noticeOf ctx.level label span)

/-- A name as a design names it: without the backslash of an escaped one. -/
def identifier (i : Syntax.Identifier) : SessionM Design.Expr := do
  let text ← resolve i.name
  match text.toList with
  | '\\' :: bare => return .id (← intern (String.ofList bare))
  | _ => return .id i.name

end Netlist.Lowering
