import Netlist.Proofs.Parser.Cursors
import Netlist.Proofs.Session.Pairing

/-!
Parsers that mirror each other: built in the same way from the same moves, with values that
correspond. The rules say all that the parsers of this project do. They look, they consume a token
of a kind they name, they skip to a place that does not lie behind the start of a unit, they report
errors at spans of their own file and they enter names; none of them asks for what is not there.
Two parsers that mirror each other give paired work on the session.
-/
namespace Netlist.Parser

open List (Forall₂)
open Syntax

variable {F : Frame} {α β γ δ : Type}

inductive Mirror (F : Frame) : {α β : Type} → (α → β → Prop) → ParserM α → ParserM β → Prop
  | done {α β : Type} {R : α → β → Prop} {a : α} {b : β} : R a b → Mirror F R (.done a) (.done b)
  | chain {α β γ δ : Type} {Q : α → β → Prop} {R : γ → δ → Prop} {x : ParserM α} {y : ParserM β}
      {f : α → ParserM γ} {g : β → ParserM δ} :
      Mirror F Q x y → (∀ a b, Q a b → Mirror F R (f a) (g b)) →
      Mirror F R (.chain x f) (.chain y g)
  | mono {α β : Type} {Q R : α → β → Prop} {x : ParserM α} {y : ParserM β} :
      Mirror F Q x y → (∀ a b, Q a b → R a b) → Mirror F R x y
  | look : Mirror F F.Cursors look look
  | eat (kind : Kind) : (kind.isUnitStart = true → F.opens) → Mirror F Eq (eat kind) (eat kind)
  | skipUntil (stop : Kind → Bool) : (∀ kind, kind.isUnitStart = true → stop kind = true) →
      Mirror F Eq (skipUntil stop) (skipUntil stop)
  | reportAt {e : SyntaxError} {s s' : Span} : e ≠ .expectedExpression → F.span s s' →
      Mirror F (fun _ _ => F.broken) (reportAt e s) (reportAt e s')
  | intern (text : String) : Mirror F (F.name text) (intern text) (intern text)
  /-- The one place where whatever comes next is consumed, and then it has been reported. -/
  | noOperand : Mirror F (Expr.Alike F) noOperand noOperand

namespace Mirror

variable {Q : α → β → Prop} {R : γ → δ → Prop} {x : ParserM α} {y : ParserM β}

theorem pure {a : α} {b : β} (h : Q a b) : Mirror F Q (Pure.pure a) (Pure.pure b) := .done h

theorem bind {f : α → ParserM γ} {g : β → ParserM δ} (h : Mirror F Q x y)
    (hnext : ∀ a b, Q a b → Mirror F R (f a) (g b)) : Mirror F R (x >>= f) (y >>= g) :=
  .chain h hnext

/-- After a step whose answers are the same both go on alike. -/
theorem bindEq {x y : ParserM α} {f : α → ParserM γ} {g : α → ParserM δ} (h : Mirror F Eq x y)
    (hnext : ∀ a, Mirror F R (f a) (g a)) : Mirror F R (x >>= f) (y >>= g) :=
  h.bind fun a _ hab => hab ▸ hnext a

theorem map {f : α → γ} {g : β → δ} (h : Mirror F Q x y) (hres : ∀ a b, Q a b → R (f a) (g b)) :
    Mirror F R (f <$> x) (g <$> y) :=
  h.bind fun a b hab => .pure (hres a b hab)

end Mirror

/-- A pairing that the work of mirrored parsers keeps to. -/
structure Serves (F : Frame) (P : Pairing) : Prop where
  name : ∀ text i j, P.name text i j → F.name text i j
  broken : P.broken → F.broken
  diag : ∀ (e : SyntaxError) (s s' : Span), F.span s s' → P.diag (e.diagnostic s) (e.diagnostic s')

variable {P : Pairing}

private theorem paired_reportAt (hP : Serves F P) {e : SyntaxError} {s s' : Span} {c c' : Cursor}
    (hs : F.span s s') (hc : F.Cursors c c') :
    Paired P (fun p q => F.broken ∧ F.Cursors p.2 q.2)
      ((reportAt e s).task c) ((reportAt e s').task c') := by
  refine Paired.bind (Q := fun _ _ => F.broken) ?_ fun _ _ hbroken => ?_
  · exact .emit (hP.diag e s s' hs) fun hbroken => hP.broken (hbroken rfl)
  · exact .pure ⟨hbroken, hc.reported hbroken⟩

private theorem paired_eat (kind : Kind) {c c' : Cursor} (hc : F.Cursors c c') :
    Paired P (fun p q => p.1 = q.1 ∧ F.Cursors p.2 q.2) ((eat kind).task c)
      ((eat kind).task c') := by
  refine Paired.pure ?_
  rw [← hc.current]
  split
  · exact ⟨rfl, hc.advance⟩
  · exact ⟨rfl, hc⟩

private theorem paired_noOperand (hP : Serves F P) {c c' : Cursor} (hc : F.Cursors c c') :
    Paired P (fun p q => Expr.Alike F p.1 q.1 ∧ F.Cursors p.2 q.2) (noOperand.task c)
      (noOperand.task c') := by
  refine Paired.chain (Q := fun p q => F.Cursors p.1 q.1 ∧ F.Cursors p.2 q.2) (.done ⟨hc, hc⟩) ?_
  rintro ⟨seen, now⟩ ⟨seen', now'⟩ ⟨hseen, hnow⟩
  refine Paired.chain (paired_reportAt hP hseen.currentSpan hnow) ?_
  rintro ⟨_, next⟩ ⟨_, next'⟩ ⟨hbroken, hnext⟩
  simp only [← hseen.current]
  split
  · exact .done ⟨.error (F.flaw_of_broken hbroken) hseen.currentSpan, hnext⟩
  · refine Paired.chain (Q := fun p q => F.Cursors p.2 q.2) ?_ fun p q hpq => ?_
    · exact (paired_eat seen.current hnext).chain fun p q hpq => .done hpq.2
    · exact .done ⟨.error (F.flaw_of_broken hbroken) hseen.currentSpan, hpq⟩

/-- Mirrored parsers at corresponding cursors do paired work, and their cursors correspond
afterwards. -/
theorem Mirror.paired {Q : α → β → Prop} {x : ParserM α} {y : ParserM β} (hP : Serves F P)
    (h : Mirror F Q x y) {c c' : Cursor} (hc : F.Cursors c c') :
    Paired P (fun p q => Q p.1 q.1 ∧ F.Cursors p.2 q.2) (x.task c) (y.task c') := by
  induction h generalizing c c' with
  | done hab => exact .done ⟨hab, hc⟩
  | chain hfirst hnext ihFirst ihNext =>
    refine Paired.chain (ihFirst hc) fun p q hpq => ?_
    exact ihNext p.1 q.1 hpq.1 hpq.2
  | mono h himp ih => exact (ih hc).mono fun p q hpq => ⟨himp _ _ hpq.1, hpq.2⟩
  | look => exact .done ⟨hc, hc⟩
  | eat kind hopens => exact paired_eat kind hc
  | skipUntil stop hstop => exact .done ⟨rfl, hc.skipUntil stop⟩
  | reportAt he hs => exact paired_reportAt hP hs hc
  | intern text =>
    refine Paired.bind (Q := F.name text) (.intern text (hP.name text)) fun i j hij => ?_
    exact .pure ⟨hij, hc⟩
  | noOperand => exact paired_noOperand hP hc

end Netlist.Parser
