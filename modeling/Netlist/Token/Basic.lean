import Netlist.Token.Lexeme
import Netlist.Diagnostic.Basic

/-!
Tokens: the lexemes that carry meaning, closed by one at the end of the text. Lexing also gives a
diagnostic for each problem, in order.
-/
namespace Netlist

structure Token where
  kind : Kind
  text : String
  start : Nat
  stop : Nat
  deriving DecidableEq

namespace Token

/-- A token of the given kind over a byte range of a text; its own text is empty if the range is
no slice. -/
def ofRange (source : String) (kind : Kind) (start stop : Nat) : Token :=
  ⟨kind, ((Text.slice? start stop source.toList).map String.ofList).getD "", start, stop⟩

/-- The token a lexeme stands for. -/
def ofLexeme? (l : Lexeme) : Option Token :=
  l.kind.map fun kind => ⟨kind, String.ofList l.text, l.start, l.stop⟩

/-- The token at the end of a text of `length` bytes. -/
def endAt (length : Nat) : Token := ⟨.eof, "", length, length⟩

def span (file : Nat) (t : Token) : Span := ⟨file, t.start, t.stop⟩

end Token

/-- The code of problems with lexemes. -/
def Problem.code : Code := ⟨.error, 100⟩

/-- A problem is reported over its lexeme, a missing base at its end. -/
def Problem.diagnostic (file : Nat) (l : Lexeme) (p : Problem) : Diagnostic where
  severity := .error
  code := Problem.code
  message := p.message
  span := ⟨file, if p = .missingBase then l.stop else l.start, l.stop⟩

def Lexeme.diagnostics (file : Nat) (l : Lexeme) : List Diagnostic :=
  l.problems.map (Problem.diagnostic file l)

/-- The tokens of a text and the diagnostics of its problems. -/
def lex (file : Nat) (source : String) : List Token × List Diagnostic :=
  let lexemes := Lexeme.ofText source.toList
  (lexemes.filterMap Token.ofLexeme? ++ [Token.endAt (Text.byteLength source.toList)],
    lexemes.flatMap (Lexeme.diagnostics file))

end Netlist
