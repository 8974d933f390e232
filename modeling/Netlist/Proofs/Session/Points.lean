import Netlist.Proofs.Session.Sequence
import Netlist.Proofs.Session.Stepping

/-!
The points of a run: how a task stands after each of its steps. A task that is the first part of
another takes the steps of its own run there, and the second part begins one step behind its end.
From point to point names are only added.
-/
namespace Netlist

namespace Task

variable {α β : Type}

theorem after_add (m n : Nat) (x : Task α × Session) : after (m + n) x = after n (after m x) := by
  rw [Nat.add_comm]
  exact Function.iterate_add_apply _ n m x

/-- The first part of a task takes its steps as it does alone. -/
theorem after_chain_of_le {m : Nat} {first : Task α} {next : α → Task β} {s : Session}
    (h : m ≤ first.turns s) :
    after m (.chain first next, s) =
      (.chain (after m (first, s)).1 next, (after m (first, s)).2) := by
  induction m generalizing first s with
  | zero => rfl
  | succ m ih =>
    cases hvalue : first.value? with
    | some a =>
      obtain rfl := Program.eq_done_of_value? hvalue
      exact absurd h (Nat.not_succ_le_zero m)
    | none =>
      have hless := turns_step hvalue s
      have hrest := ih (show m ≤ (first.step s).1.turns (first.step s).2 by omega)
      show after m (step (.chain first next) s) = _
      rw [step_chain hvalue, hrest]
      rfl

/-- Behind the end of the first part the second one begins. -/
theorem after_chain (first : Task α) (next : α → Task β) (s : Session) :
    after (first.turns s + 1) (.chain first next, s) =
      (next (first.run s).1, (first.run s).2) := by
  rw [after_add, after_chain_of_le le_rfl, after_of_turns_le le_rfl]
  exact step_chain_done

theorem names_extends_after (x : Task α) (s : Session) {m n : Nat} (h : m ≤ n) :
    (after m (x, s)).2.names.Extends (after n (x, s)).2.names := by
  have hsteps (k : Nat) (y : Task α × Session) : y.2.names.Extends (after k y).2.names := by
    induction k generalizing y with
    | zero => exact .refl _
    | succ k ih => exact (names_extends_step y.1 y.2).trans (ih _)
  obtain ⟨k, rfl⟩ := Nat.exists_eq_add_of_le h
  rw [after_add]
  exact hsteps k _

theorem names_distinct_after (n : Nat) (x : Task α) {s : Session} (hs : s.names.Distinct) :
    (after n (x, s)).2.names.Distinct := by
  induction n generalizing x s with
  | zero => exact hs
  | succ n ih => exact ih _ (names_distinct_step x hs)

end Task

namespace SessionM

variable {α β : Type} {x : SessionM α} {f : α → SessionM β} {a : α} {s t : Session}

/-- The session of some work at each of its points. -/
def points (x : SessionM α) (s : Session) (n : Nat) : Session := (Task.after n (x.run, s)).2

theorem points_turns {result : Except Misuse α} (h : x.run.run s = (result, t)) :
    points x s (x.run.turns s) = t := by
  rw [points, Task.after_of_turns_le le_rfl, h]

theorem points_bind_of_le {n : Nat} (h : n ≤ x.run.turns s) :
    points (x >>= f) s n = points x s n := congrArg Prod.snd (Task.after_chain_of_le h)

/-- The second part begins one step behind the end of the first one. -/
theorem points_bind_add (h : x.run.run s = (.ok a, t)) (n : Nat) :
    points (x >>= f) s (x.run.turns s + 1 + n) = points (f a) t n := by
  have hnext := Task.after_chain x.run (ExceptT.bindCont f) s
  rw [h] at hnext
  exact congrArg Prod.snd ((Task.after_add _ n _).trans (congrArg (Task.after n) hnext))

/-- The steps of both parts, and the one between them. -/
theorem turns_bind (h : x.run.run s = (.ok a, t)) :
    (x >>= f).run.turns s = x.run.turns s + 1 + (f a).run.turns t := by
  have hboth : (x >>= f).run.turns s =
      x.run.turns s + 1 + Task.turns (ExceptT.bindCont f (x.run.run s).1) (x.run.run s).2 := rfl
  rw [hboth, h]
  rfl

theorem names_extends_points (x : SessionM α) (s : Session) {m n : Nat} (h : m ≤ n) :
    (points x s m).names.Extends (points x s n).names := Task.names_extends_after x.run s h

theorem names_distinct_points (x : SessionM α) (hs : s.names.Distinct) (n : Nat) :
    (points x s n).names.Distinct := Task.names_distinct_after n x.run hs

end SessionM

end Netlist
