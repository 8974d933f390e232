/-!
Programs: a computation as what it asks of its surroundings. A program is done, makes one call, or
goes on from the answer of another program. What a call means is said when a program is run, so the
same program can run alone or among others.
-/
namespace Netlist

inductive Program (Op : Type → Type) : Type → Type 1 where
  | done {α : Type} (a : α) : Program Op α
  | call {α : Type} (op : Op α) : Program Op α
  | chain {α β : Type} (first : Program Op α) (next : α → Program Op β) : Program Op β

namespace Program

variable {Op Op' : Type → Type} {σ : Type}

instance : Monad (Program Op) where
  pure := .done
  bind := .chain

/-- Runs a program, where `exec` says what a call answers and what it does to the state. -/
def run (exec : {α : Type} → Op α → σ → α × σ) : {α : Type} → Program Op α → σ → α × σ
  | _, .done a, s => (a, s)
  | _, .call op, s => exec op s
  | _, .chain first next, s =>
    let (a, s') := run exec first s
    run exec (next a) s'

/-- The same program over other calls, with a state carried along. -/
def through (exec : {α : Type} → Op α → σ → Program Op' (α × σ)) :
    {α : Type} → Program Op α → σ → Program Op' (α × σ)
  | _, .done a, s => .done (a, s)
  | _, .call op, s => exec op s
  | _, .chain first next, s => .chain (through exec first s) fun (a, s') => through exec (next a) s'

end Program

end Netlist
