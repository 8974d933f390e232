import Netlist.Source.Span
import Netlist.Json

/-!
Diagnostics: what was found, where, and how serious it is. A code is a letter and a number of at
least three digits.
-/
namespace Netlist

inductive Severity where
  | note
  | warning
  | error
  deriving DecidableEq

namespace Severity

def all : List Severity := [.note, .warning, .error]

def text : Severity → String
  | .note => "note"
  | .warning => "warning"
  | .error => "error"

/-- Notes are the least serious and errors the most. -/
def rank : Severity → Nat
  | .note => 0
  | .warning => 1
  | .error => 2

def isError (s : Severity) : Bool := s == .error

end Severity

inductive Category where
  | error
  | warning
  deriving DecidableEq

namespace Category

def letter : Category → Char
  | .error => 'E'
  | .warning => 'W'

def name : Category → String
  | .error => "Error"
  | .warning => "Warning"

end Category

structure Code where
  category : Category
  number : Nat
  deriving DecidableEq

namespace Code

/-- The letter, then the number with zeros in front up to three digits. -/
def text (code : Code) : String :=
  let digits := Nat.toDigits 10 code.number
  String.ofList (code.category.letter :: (List.replicate (3 - digits.length) '0' ++ digits))

def toJson (code : Code) : Json :=
  .object [("category", .string code.category.name), ("number", .ofNat code.number)]

end Code

/-- A remark tied to a span. The first primary one stands beside the marked line. -/
structure Label where
  span : Span
  message : String
  primary : Bool

structure Diagnostic where
  severity : Severity
  code : Code
  message : String
  span : Span
  labels : List Label := []
  notes : List String := []
  help : List String := []

def Span.toJson (s : Span) : Json :=
  .object [("file", .ofNat s.file), ("start", .ofNat s.start), ("end", .ofNat s.stop)]

def Label.toJson (l : Label) : Json :=
  .object [("span", l.span.toJson), ("message", .string l.message),
    ("style", .string (if l.primary then "Primary" else "Secondary"))]

def Diagnostic.toJson (d : Diagnostic) : Json :=
  .object [("severity", .string d.severity.text), ("code", d.code.toJson),
    ("message", .string d.message), ("primary_span", d.span.toJson),
    ("labels", .ofList Label.toJson d.labels), ("notes", .ofList .string d.notes),
    ("help", .ofList .string d.help)]

end Netlist
