import Netlist.Proofs.Session.Sequence
import Netlist.Proofs.Session.Stepping
import Mathlib.Logic.Function.Basic

/-!
Tasks that share one session. A schedule says whose turn it is; a turn is one step, so the calls of
different tasks come in any order and each call is made as a whole. Every task stays abreast of a
companion that runs alone, whatever the schedule.
-/
namespace Netlist

open List (Forall₂)

/-- Tasks at work on one session. -/
structure Pool (α : Type) where
  tasks : List (Task α)
  session : Session := {}

namespace Pool

variable {α β : Type}

/-- A turn of the task with this number. -/
def turn (p : Pool α) (n : Nat) : Pool α :=
  match p.tasks[n]? with
  | some x => ⟨p.tasks.set n (x.step p.session).1, (x.step p.session).2⟩
  | none => p

def run (p : Pool α) (schedule : List Nat) : Pool α := schedule.foldl turn p

/-- What the tasks give, in their order, once all of them are done. -/
def results? (p : Pool α) : Option (List α) := p.tasks.mapM Program.value?

theorem turn_some {p : Pool α} {n : Nat} {x : Task α} (h : p.tasks[n]? = some x) :
    p.turn n = ⟨p.tasks.set n (x.step p.session).1, (x.step p.session).2⟩ := by
  rw [turn, h]

theorem turn_none {p : Pool α} {n : Nat} (h : p.tasks[n]? = none) : p.turn n = p := by
  rw [turn, h]

theorem length_turn (p : Pool α) (n : Nat) : (p.turn n).tasks.length = p.tasks.length := by
  cases h : p.tasks[n]? with
  | none => rw [turn_none h]
  | some x => rw [turn_some h, List.length_set]

theorem length_run (p : Pool α) (schedule : List Nat) :
    (p.run schedule).tasks.length = p.tasks.length := by
  induction schedule generalizing p with
  | nil => rfl
  | cons n schedule ih => exact (ih (p.turn n)).trans (p.length_turn n)

theorem names_extends_turn (p : Pool α) (n : Nat) :
    p.session.names.Extends (p.turn n).session.names := by
  cases h : p.tasks[n]? with
  | none => rw [turn_none h]; exact Names.Extends.refl _
  | some x => rw [turn_some h]; exact x.names_extends_step p.session

theorem names_extends (p : Pool α) (schedule : List Nat) :
    p.session.names.Extends (p.run schedule).session.names := by
  induction schedule generalizing p with
  | nil => exact Names.Extends.refl _
  | cons n schedule ih => exact (p.names_extends_turn n).trans (ih (p.turn n))

theorem names_distinct {p : Pool α} (h : p.session.names.Distinct) (schedule : List Nat) :
    (p.run schedule).session.names.Distinct := by
  induction schedule generalizing p with
  | nil => exact h
  | cons n schedule ih =>
    refine ih ?_
    cases hx : p.tasks[n]? with
    | none => rwa [turn_none hx]
    | some x => rw [turn_some hx]; exact x.names_distinct_step h

theorem results?_done (as : List α) (s : Session) :
    (Pool.mk (as.map .done) s).results? = some as := by
  show (as.map Program.done).mapM Program.value? = some as
  induction as with
  | nil => rfl
  | cons a as ih => rw [List.map_cons, List.mapM_cons, ih]; rfl

theorem tasks_of_results? {p : Pool α} {as : List α} (h : p.results? = some as) :
    p.tasks = as.map .done := by
  unfold results? at h
  generalize p.tasks = xs at h ⊢
  induction xs generalizing as with
  | nil => cases h; rfl
  | cons x xs ih =>
    rw [List.mapM_cons] at h
    cases hx : x.value? with
    | none => rw [hx] at h; cases h
    | some a =>
      cases hxs : xs.mapM Program.value? with
      | none => rw [hx, hxs] at h; cases h
      | some bs =>
        rw [hx, hxs] at h
        cases h
        rw [List.map_cons, ih hxs, Program.eq_done_of_value? hx]

/-- The schedule that lets one task take its turns until it is done. -/
theorem run_replicate {p : Pool α} {n : Nat} {x : Task α} (h : p.tasks[n]? = some x) (k : Nat) :
    p.run (List.replicate k n) = ⟨p.tasks.set n (Task.after k (x, p.session)).1,
      (Task.after k (x, p.session)).2⟩ := by
  induction k generalizing p x with
  | zero =>
    obtain ⟨hn, rfl⟩ := List.getElem?_eq_some_iff.mp h
    show p = ⟨p.tasks.set n p.tasks[n], p.session⟩
    rw [List.set_getElem_self]
  | succ k ih =>
    have hn : n < p.tasks.length := (List.getElem?_eq_some_iff.mp h).1
    have hnext : (p.turn n).tasks[n]? = some (x.step p.session).1 := by
      rw [turn_some h, List.getElem?_set_self hn]
    show (p.turn n).run (List.replicate k n) = _
    rw [ih hnext, turn_some h, List.set_set]
    rfl

/-- The schedule that runs tasks one after the other. -/
theorem run_steps {f : Nat → Task α} {ns : List Nat} {s t : Session} {as : List α}
    (h : Steps (fun n s a t => (f n).run s = (a, t)) ns s as t) (before : List (Task α)) :
    ∃ schedule, run ⟨before ++ ns.map f, s⟩ schedule = ⟨before ++ as.map .done, t⟩ := by
  induction h generalizing before with
  | nil s => exact ⟨[], rfl⟩
  | @cons n ns a as s t u hrun hrest ih =>
    obtain ⟨schedule, hschedule⟩ := ih (before ++ [.done a])
    have hx : (before ++ (n :: ns).map f)[before.length]? = some (f n) := by simp
    have hfirst := run_replicate (p := ⟨before ++ (n :: ns).map f, s⟩) hx ((f n).turns s)
    rw [Task.after_of_turns_le (Nat.le_refl _), hrun] at hfirst
    refine ⟨List.replicate ((f n).turns s) before.length ++ schedule, ?_⟩
    rw [run, List.foldl_append]
    show run (run ⟨before ++ (n :: ns).map f, s⟩ _) schedule = _
    rw [hfirst]
    simpa using hschedule

/-- Companions of which one has taken a step. -/
def moved (alone : Nat → Task β × Session) (n : Nat) : Nat → Task β × Session :=
  Function.update alone n ((alone n).1.step (alone n).2)

section Moved

variable (alone : Nat → Task β × Session) {n m : Nat}

theorem moved_self : moved alone n n = (alone n).1.step (alone n).2 := Function.update_self ..

theorem moved_of_ne (h : m ≠ n) : moved alone n m = alone m := Function.update_of_ne h ..

/-- A step does not change where a companion ends. -/
theorem moved_run : Task.run (moved alone n m).1 (moved alone n m).2 =
    (alone m).1.run (alone m).2 := by
  by_cases hm : m = n
  · subst hm
    rw [moved_self, Task.step_run]
  · rw [moved_of_ne alone hm]

theorem after_moved (k : Nat) : Task.after k (moved alone n n) = Task.after (k + 1) (alone n) := by
  rw [moved_self]
  rfl

end Moved

/-- Each task is abreast of its companion, and the diagnostics of a file are those its companion
emitted. The task with number `n` is that of the file `n`. -/
structure InStep (P : Nat → Pairing) (R : Nat → α → β → Prop) (final : Nat → Names) (p : Pool α)
    (alone : Nat → Task β × Session) : Prop where
  tasks : ∀ n x, p.tasks[n]? = some x →
    Abreast (P n) (R n) x p.session (alone n).1 (alone n).2
  log : ∀ n < p.tasks.length,
    Forall₂ (P n).diag (p.session.log.held.toList.filter fun d => d.span.file = n)
      (alone n).2.log.held.toList
  files : ∀ d ∈ p.session.log.held.toList, d.span.file < p.tasks.length
  final : ∀ n, ((alone n).1.run (alone n).2).2.names = final n

section InStep

variable {P : Nat → Pairing} {R : Nat → α → β → Prop} {final : Nat → Names} {later : Names}
  (hP : ∀ n, (P n).ByTexts later (final n)) (hdistinct : later.Distinct)
  (hfile : ∀ n d d', (P n).diag d d' → d.span.file = n)

include hP hdistinct hfile

/-- A turn of a task goes with a step of its companion. -/
theorem InStep.turn {p : Pool α} {alone : Nat → Task β × Session} (h : InStep P R final p alone)
    {n : Nat} (hlater : (p.turn n).session.names.Extends later) :
    InStep P R final (p.turn n) (moved alone n) := by
  have hfinal (m : Nat) : (Task.run (moved alone n m).1 (moved alone n m).2).2.names = final m := by
    rw [moved_run]
    exact h.final m
  cases hx : p.tasks[n]? with
  | none =>
    -- No task has this number, so only the companion moves, and nothing is said about it.
    have hother {m : Nat} (hm : m < p.tasks.length) : m ≠ n := by
      rintro rfl
      exact absurd hx (by simp [hm])
    rw [turn_none hx]
    refine ⟨fun m x hm => ?_, fun m hm => ?_, h.files, hfinal⟩
    · rw [moved_of_ne alone (hother (List.getElem?_eq_some_iff.mp hm).1)]
      exact h.tasks m x hm
    · rw [moved_of_ne alone (hother hm)]
      exact h.log m hm
  | some x =>
    have hlt : n < p.tasks.length := (List.getElem?_eq_some_iff.mp hx).1
    have hextends := p.names_extends_turn n
    rw [turn_some hx] at hlater hextends ⊢
    have halone : ((alone n).1.step (alone n).2).2.names.Extends (final n) := by
      rw [← h.final n, ← Task.step_run]
      exact Task.names_extends _ _
    obtain ⟨habreast, ds, ds', hheld, hheld', hdiags⟩ :=
      (h.tasks n x hx).step (hP n) hdistinct hlater halone
    have hown : ∀ d ∈ ds, d.span.file = n :=
      ((List.forall₂_and_left _ _).mp (hdiags.imp fun d d' hd => ⟨hfile n d d' hd, hd⟩)).1
    refine ⟨fun m y hm => ?_, fun m hm => ?_, fun d hd => ?_, hfinal⟩
    · by_cases hmn : m = n
      · subst hmn
        rw [List.getElem?_set_self hlt] at hm
        obtain rfl := Option.some.inj hm
        rw [moved_self]
        exact habreast
      · rw [List.getElem?_set_ne (Ne.symm hmn)] at hm
        rw [moved_of_ne alone hmn]
        exact (h.tasks m y hm).mono hextends
    · rw [List.length_set] at hm
      rw [hheld, List.filter_append]
      by_cases hmn : m = n
      · subst hmn
        have hall : ds.filter (fun d => d.span.file = m) = ds :=
          List.filter_eq_self.mpr (by simpa using hown)
        rw [moved_self, hheld', hall]
        exact List.rel_append (h.log m hm) hdiags
      · have hnone : ds.filter (fun d => d.span.file = m) = [] := by
          rw [List.filter_eq_nil_iff]
          intro d hd
          simpa [hown d hd] using Ne.symm hmn
        rw [moved_of_ne alone hmn, hnone, List.append_nil]
        exact h.log m hm
    · rw [hheld, List.mem_append] at hd
      rw [List.length_set]
      rcases hd with hd | hd
      · exact h.files d hd
      · rw [hown d hd]
        exact hlt

/-- Under any schedule a companion takes as many steps as its task has turns. -/
theorem InStep.run {p : Pool α} {alone : Nat → Task β × Session} (h : InStep P R final p alone)
    {schedule : List Nat} (hlater : (p.run schedule).session.names.Extends later) :
    InStep P R final (p.run schedule) fun n => Task.after (schedule.count n) (alone n) := by
  induction schedule generalizing p alone with
  | nil => exact h
  | cons n schedule ih =>
    have hturn := h.turn hP hdistinct hfile (n := n)
      (((p.turn n).names_extends schedule).trans hlater)
    have hsteps : (fun m => Task.after ((n :: schedule).count m) (alone m)) =
        fun m => Task.after (schedule.count m) (moved alone n m) := by
      funext m
      by_cases hm : m = n
      · subst hm
        rw [List.count_cons_self, after_moved]
      · rw [List.count_cons_of_ne (Ne.symm hm), moved_of_ne alone hm]
    rw [hsteps]
    exact ih hturn hlater

/-- Once all tasks are done, each has given what corresponds to the result of its companion, and
the diagnostics of its file correspond to those of its companion. -/
theorem InStep.results {p : Pool α} {alone : Nat → Task β × Session} (h : InStep P R final p alone)
    {schedule : List Nat} (hlater : (p.run schedule).session.names.Extends later) {as : List α}
    (has : (p.run schedule).results? = some as) {n : Nat} {a : α} (hn : as[n]? = some a) :
    R n a ((alone n).1.run (alone n).2).1 ∧
      Forall₂ (P n).diag
        ((p.run schedule).session.log.held.toList.filter fun d => d.span.file = n)
        ((alone n).1.run (alone n).2).2.log.held.toList := by
  have hrun := h.run hP hdistinct hfile hlater
  have htask : (p.run schedule).tasks[n]? = some (.done a) := by
    rw [tasks_of_results? has, List.getElem?_map, hn, Option.map_some]
  have hvalue := (hrun.tasks n _ htask).paired.value?
  cases hb : (Task.after (schedule.count n) (alone n)).1.value? with
  | none => rw [hb] at hvalue; cases hvalue
  | some b =>
    rw [hb] at hvalue
    have hdone := Program.eq_done_of_value? hb
    have hend := Task.after_run (schedule.count n) (alone n)
    rw [hdone] at hend
    cases hvalue with
    | some hab =>
      rw [← hend]
      exact ⟨hab, hrun.log n (List.getElem?_eq_some_iff.mp htask).1⟩

/-- All tasks are done after as many turns as their companions need steps. -/
theorem InStep.finished {p : Pool α} {alone : Nat → Task β × Session} (h : InStep P R final p alone)
    {schedule : List Nat} (hlater : (p.run schedule).session.names.Extends later)
    (hturns : ∀ n < p.tasks.length, (alone n).1.turns (alone n).2 ≤ schedule.count n) :
    ∃ as, (p.run schedule).results? = some as := by
  have hrun := h.run hP hdistinct hfile hlater
  have hdone : ∀ x ∈ (p.run schedule).tasks, ∃ a, x.value? = some a := by
    intro x hx
    obtain ⟨n, hn⟩ := List.mem_iff_getElem?.mp hx
    have hlt : n < p.tasks.length := by
      rw [← p.length_run schedule]
      exact (List.getElem?_eq_some_iff.mp hn).1
    have hvalue := (hrun.tasks n x hn).paired.value?
    rw [Task.after_of_turns_le (hturns n hlt)] at hvalue
    cases hx : x.value? with
    | none => rw [hx] at hvalue; cases hvalue
    | some a => exact ⟨a, rfl⟩
  unfold results?
  generalize (p.run schedule).tasks = xs at hdone
  induction xs with
  | nil => exact ⟨[], rfl⟩
  | cons x xs ih =>
    obtain ⟨a, ha⟩ := hdone x List.mem_cons_self
    obtain ⟨as, has⟩ := ih fun x hx => hdone x (List.mem_cons_of_mem _ hx)
    exact ⟨a :: as, by rw [List.mapM_cons, ha, has]; rfl⟩

end InStep

end Pool

end Netlist
