import Netlist.Proofs.Session.Growth
import Mathlib.Data.List.Forall2

/-!
Two tasks that go hand in hand: they make the same calls in the same order, up to which index a
name has and to where diagnostics point. Neither can tell its own session from the other's, since
no step looks at an index. If both are run, in whatever sessions, their results correspond and so do
the diagnostics they emit.
-/
namespace Netlist

/-- What corresponds to what between two tasks. -/
structure Pairing where
  /-- Indices that the two sessions may give to this text. -/
  name : String → Nat → Nat → Prop
  /-- Indices that may be looked up. -/
  known : Nat → Nat → Prop
  diag : Diagnostic → Diagnostic → Prop
  /-- What may be concluded once an error has been emitted. -/
  broken : Prop

variable {α β γ δ : Type}

inductive Paired (P : Pairing) : {α β : Type} → (α → β → Prop) → Task α → Task β → Prop
  | done {α β : Type} {R : α → β → Prop} {a : α} {b : β} : R a b → Paired P R (.done a) (.done b)
  | intern {R : Nat → Nat → Prop} (text : String) : (∀ i j, P.name text i j → R i j) →
      Paired P R (.call (.intern text)) (.call (.intern text))
  | resolve {R : Except Misuse String → Except Misuse String → Prop} {i j : Nat} :
      P.known i j → (∀ text, R (.ok text) (.ok text)) →
      Paired P R (.call (.resolve i)) (.call (.resolve j))
  | emit {R : Unit → Unit → Prop} {d d' : Diagnostic} :
      P.diag d d' → ((d.severity = .error → P.broken) → R () ()) →
      Paired P R (.call (.emit d)) (.call (.emit d'))
  | chain {α β γ δ : Type} {Q : α → β → Prop} {R : γ → δ → Prop} {x : Task α} {y : Task β}
      {f : α → Task γ} {g : β → Task δ} :
      Paired P Q x y → (∀ a b, Q a b → Paired P R (f a) (g b)) →
      Paired P R (.chain x f) (.chain y g)

namespace Paired

variable {P : Pairing} {Q : α → β → Prop} {R : γ → δ → Prop} {x : Task α} {y : Task β}

theorem pure {a : α} {b : β} (h : Q a b) : Paired P Q (Pure.pure a) (Pure.pure b) := .done h

theorem bind {f : α → Task γ} {g : β → Task δ} (h : Paired P Q x y)
    (hnext : ∀ a b, Q a b → Paired P R (f a) (g b)) : Paired P R (x >>= f) (y >>= g) :=
  .chain h hnext

theorem mono {Q' : α → β → Prop} (h : Paired P Q x y) (himp : ∀ a b, Q a b → Q' a b) :
    Paired P Q' x y := by
  induction h with
  | done hab => exact .done (himp _ _ hab)
  | intern text hname => exact .intern text fun i j hij => himp i j (hname i j hij)
  | resolve hknown hsame => exact .resolve hknown fun text => himp _ _ (hsame text)
  | emit hdiag hres => exact .emit hdiag fun hbroken => himp _ _ (hres hbroken)
  | chain hfirst hnext ihFirst ihNext => exact .chain hfirst fun a b hab => ihNext a b hab himp

end Paired

namespace Task

/-- Every look-up of a task that runs alone from a session finds a name. -/
def Hits : {α : Type} → Task α → Session → Prop
  | _, .done _, _ => True
  | _, .call (.emit _), _ => True
  | _, .call (.intern _), _ => True
  | _, .call (.resolve index), s => ∃ text, s.names.resolve? index = some text
  | _, .chain first next, s =>
    Hits first s ∧ Hits (next (Task.run first s).1) (Task.run first s).2

/-- A task that is run again, once the names it enters are there, gives the same result and enters
nothing. -/
theorem run_again (x : Task α) {s u : Session} (hhits : x.Hits s)
    (hlater : (x.run s).2.names.Extends u.names) :
    (x.run u).1 = (x.run s).1 ∧ (x.run u).2.names = u.names := by
  induction x generalizing s u with
  | done a => exact ⟨rfl, rfl⟩
  | call op =>
    cases op with
    | intern text =>
      have hfound : u.names.find? text = some (s.names.intern text).1 :=
        hlater.find? (Names.find?_intern s.names text)
      have hagain : u.names.intern text = ((s.names.intern text).1, u.names) := by
        simp only [Names.intern, hfound]
      show (u.names.intern text).1 = (s.names.intern text).1 ∧
        (u.names.intern text).2 = u.names
      rw [hagain]
      exact ⟨rfl, rfl⟩
    | resolve index =>
      obtain ⟨text, htext⟩ := hhits
      have hboth := (Names.resolve_eq_ok (hlater.resolve? htext)).trans
        (Names.resolve_eq_ok htext).symm
      exact ⟨hboth, rfl⟩
    | emit d => exact ⟨rfl, rfl⟩
  | chain first next ihFirst ihNext =>
    obtain ⟨hfirst, hnext⟩ := hhits
    have hmiddle : (Task.run first s).2.names.Extends u.names :=
      (names_extends _ _).trans hlater
    obtain ⟨hresult, hnames⟩ := ihFirst hfirst hmiddle
    have hrest : (Task.run (next (Task.run first s).1) (Task.run first s).2).2.names.Extends
        (Task.run first u).2.names := by
      rw [hnames]
      exact hlater
    have hagain := ihNext _ hnext hrest
    rw [run_chain, run_chain, hresult]
    exact ⟨hagain.1, hagain.2.trans hnames⟩

end Task

theorem SessionM.hits_bind {x : SessionM α} {f : α → SessionM β} {a : α} {s t : Session}
    (h : x.run.run s = (.ok a, t)) (hx : x.run.Hits s) (hf : (f a).run.Hits t) :
    (x >>= f).run.Hits s := by
  show Task.Hits (.chain x.run _) s
  rw [Task.Hits, h]
  exact ⟨hx, hf⟩

/-- What two sessions have to offer for a pairing to hold between runs from `s` to `t` and from
`s'` to `t'`. -/
structure Pairing.Holds (P : Pairing) (s t s' t' : Session) : Prop where
  name : ∀ text i j, t.names.resolve? i = some text → t'.names.resolve? j = some text →
    P.name text i j
  known : ∀ i j, P.known i j →
    ∃ text, s.names.resolve? i = some text ∧ s'.names.resolve? j = some text
  broken : t.log.errors ≠ s.log.errors → P.broken

namespace Paired

variable {P : Pairing} {Q : α → β → Prop} {x : Task α} {y : Task β}

/-- Paired tasks give corresponding results and emit corresponding diagnostics. -/
theorem run (h : Paired P Q x y) {s s' : Session}
    (hold : P.Holds s (x.run s).2 s' (y.run s').2) :
    Q (x.run s).1 (y.run s').1 ∧ List.Forall₂ P.diag (x.emitted s) (y.emitted s') ∧ x.Hits s := by
  induction h generalizing s s' with
  | done hab => exact ⟨hab, .nil, trivial⟩
  | intern text hname =>
    refine ⟨hname _ _ (hold.name text _ _ ?_ ?_), .nil, trivial⟩
    · exact Names.resolve?_intern s.names text
    · exact Names.resolve?_intern s'.names text
  | @resolve R i j hknown hsame =>
    obtain ⟨text, hi, hj⟩ := hold.known _ _ hknown
    refine ⟨?_, .nil, text, hi⟩
    simp only [Task.run_resolve, Names.resolve_eq_ok hi, Names.resolve_eq_ok hj]
    exact hsame _
  | @emit R d d' hdiag hres =>
    refine ⟨hres fun herror => hold.broken ?_, .cons hdiag .nil, trivial⟩
    simp [Session.emit, Log.emit, herror]
  | @chain _ _ _ _ Q R x y f g hfirst hnext ihFirst ihNext =>
    -- Names and errors only grow, so what the whole runs offer each half has too.
    have hnames := Task.names_extends (f (x.run s).1) (x.run s).2
    have hnames' := Task.names_extends (g (y.run s').1) (y.run s').2
    have hmono := Task.errors_mono x s
    have hmono' := Task.errors_mono (f (x.run s).1) (x.run s).2
    simp only [Task.run_chain] at hold ⊢
    have holdFirst : P.Holds s (x.run s).2 s' (y.run s').2 := {
      name := fun text i j hi hj =>
        hold.name text i j (hnames.resolve? hi) (hnames'.resolve? hj)
      known := hold.known
      broken := fun hne => hold.broken (by omega) }
    have holdNext : P.Holds (x.run s).2 (Task.run (f (x.run s).1) (x.run s).2).2
        (y.run s').2 (Task.run (g (y.run s').1) (y.run s').2).2 := {
      name := hold.name
      known := by
        intro i j hij
        obtain ⟨text, hi, hj⟩ := hold.known i j hij
        exact ⟨text, (Task.names_extends x s).resolve? hi, (Task.names_extends y s').resolve? hj⟩
      broken := fun hne => hold.broken (by omega) }
    obtain ⟨hab, hfirstDiags, hfirstHits⟩ := ihFirst holdFirst
    obtain ⟨hres, hdiags, hhits⟩ := ihNext _ _ hab holdNext
    exact ⟨hres, List.rel_append hfirstDiags hdiags, hfirstHits, hhits⟩

end Paired

end Netlist
