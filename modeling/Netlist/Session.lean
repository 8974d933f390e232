import Netlist.Names
import Netlist.Diagnostic.Log
import Netlist.Program

/-!
What the files of one run share: the names met so far and the log. Work on a session is a program
whose calls enter a name, look one up, or emit a diagnostic.
-/
namespace Netlist

structure Session where
  names : Names := {}
  log : Log := {}

namespace Session

def intern (session : Session) (text : String) : Nat × Session :=
  let (index, names) := session.names.intern text
  (index, { session with names := names })

def emit (session : Session) (d : Diagnostic) : Session :=
  { session with log := session.log.emit d }

def emitAll (session : Session) (ds : List Diagnostic) : Session :=
  { session with log := session.log.emitAll ds }

end Session

/-- What can be asked of a session. -/
inductive Call : Type → Type where
  | intern (text : String) : Call Nat
  | resolve (index : Nat) : Call (Except Misuse String)
  | emit (d : Diagnostic) : Call Unit

def Call.exec {α : Type} : Call α → Session → α × Session
  | .intern text, s => s.intern text
  | .resolve index, s => (s.names.resolve index, s)
  | .emit d, s => ((), s.emit d)

abbrev Task := Program Call

namespace Task

def run {α : Type} (t : Task α) (s : Session) : α × Session := Program.run Call.exec t s

def intern (text : String) : Task Nat := .call (.intern text)

def resolve (index : Nat) : Task (Except Misuse String) := .call (.resolve index)

def emit (d : Diagnostic) : Task Unit := .call (.emit d)

def emitAll : List Diagnostic → Task Unit
  | [] => return
  | d :: ds => do
    emit d
    emitAll ds

end Task

/-- Work on the session; references may turn out not to belong to it. -/
abbrev SessionM := ExceptT Misuse Task

/-- What a look-up gives, or its failure. -/
def SessionM.ofExcept {α : Type} : Except Misuse α → SessionM α
  | .ok a => return a
  | .error m => throw m

end Netlist
