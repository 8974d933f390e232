import Netlist.Proofs.Design.Shown
import Netlist.Proofs.Session.Pairing
import Mathlib.Logic.Function.Iterate

/-!
Tasks step by step. A step makes at most one call on the session, and a task that takes its steps
alone ends where a run of it ends. Two tasks that go hand in hand can also take their steps each
among other tasks, as long as every look-up of one of them finds a name when it runs alone.
-/
namespace Netlist

open List (Forall₂)

namespace Program

/-- The value of a program that is done. -/
def value? {Op : Type → Type} : {α : Type} → Program Op α → Option α
  | _, .done a => some a
  | _, .call _ => none
  | _, .chain _ _ => none

theorem eq_done_of_value? {Op : Type → Type} {α : Type} {x : Program Op α} {a : α}
    (h : x.value? = some a) : x = .done a := by
  cases x with
  | done b => cases h; rfl
  | call op => cases h
  | chain first next => cases h

end Program

namespace Task

variable {α β : Type}

/-- One step of a task. Only a call touches the session. -/
def step : {α : Type} → Task α → Session → Task α × Session
  | _, .done a, s => (.done a, s)
  | _, .call op, s => (.done (op.exec s).1, (op.exec s).2)
  | _, .chain first next, s =>
    match first.value? with
    | some a => (next a, s)
    | none => (.chain (step first s).1 next, (step first s).2)

/-- How many steps a task takes alone. -/
def turns : {α : Type} → Task α → Session → Nat
  | _, .done _, _ => 0
  | _, .call _, _ => 1
  | _, .chain first next, s =>
    turns first s + 1 + turns (next (Task.run first s).1) (Task.run first s).2

/-- What is left of a task, and the session, after some steps alone. -/
def after (n : Nat) (x : Task α × Session) : Task α × Session := (fun x => x.1.step x.2)^[n] x

theorem step_chain_done {a : α} {next : α → Task β} {s : Session} :
    step (.chain (.done a) next) s = (next a, s) := rfl

theorem step_chain {first : Task α} {next : α → Task β} {s : Session} (h : first.value? = none) :
    step (.chain first next) s = (.chain (first.step s).1 next, (first.step s).2) := by
  rw [step, h]

/-- A step leads nowhere else than the whole run. -/
theorem step_run (x : Task α) (s : Session) : Task.run (x.step s).1 (x.step s).2 = x.run s := by
  induction x generalizing s with
  | done a => rfl
  | call op => rfl
  | chain first next ihFirst _ =>
    cases hvalue : first.value? with
    | some a =>
      obtain rfl := Program.eq_done_of_value? hvalue
      rfl
    | none => rw [step_chain hvalue, run_chain, run_chain, ihFirst]

theorem after_run (n : Nat) (x : Task α × Session) :
    Task.run (after n x).1 (after n x).2 = x.1.run x.2 := by
  induction n generalizing x with
  | zero => rfl
  | succ n ih => exact (ih _).trans (step_run x.1 x.2)

theorem names_extends_step (x : Task α) (s : Session) : s.names.Extends (x.step s).2.names := by
  induction x generalizing s with
  | done a => exact Names.Extends.refl _
  | call op => exact names_extends (.call op) s
  | chain first next ihFirst _ =>
    cases hvalue : first.value? with
    | some a =>
      obtain rfl := Program.eq_done_of_value? hvalue
      exact Names.Extends.refl _
    | none =>
      rw [step_chain hvalue]
      exact ihFirst s

theorem names_distinct_step (x : Task α) {s : Session} (hs : s.names.Distinct) :
    (x.step s).2.names.Distinct := by
  induction x generalizing s with
  | done a => exact hs
  | call op => exact names_distinct (.call op) hs
  | chain first next ihFirst _ =>
    cases hvalue : first.value? with
    | some a =>
      obtain rfl := Program.eq_done_of_value? hvalue
      exact hs
    | none =>
      rw [step_chain hvalue]
      exact ihFirst hs

theorem turns_step {x : Task α} (h : x.value? = none) (s : Session) :
    (x.step s).1.turns (x.step s).2 + 1 = x.turns s := by
  induction x generalizing s with
  | done a => cases h
  | call op => rfl
  | chain first next ihFirst _ =>
    cases hvalue : first.value? with
    | some a =>
      obtain rfl := Program.eq_done_of_value? hvalue
      rw [step_chain_done, turns, turns, Nat.zero_add, Nat.add_comm]
      rfl
    | none =>
      rw [step_chain hvalue, turns, turns, step_run, ← ihFirst hvalue]
      dsimp only
      omega

/-- A task that takes its steps alone gets to the end of its run, and stays there. -/
theorem after_of_turns_le {n : Nat} {x : Task α} {s : Session} (h : x.turns s ≤ n) :
    after n (x, s) = (.done (x.run s).1, (x.run s).2) := by
  induction n generalizing x s with
  | zero =>
    cases x with
    | done a => rfl
    | call op => cases h
    | chain first next => rw [turns] at h; omega
  | succ n ih =>
    have hstep : (x.step s).1.turns (x.step s).2 ≤ n := by
      cases hvalue : x.value? with
      | some a =>
        obtain rfl := Program.eq_done_of_value? hvalue
        exact Nat.zero_le n
      | none =>
        have hless := turns_step hvalue s
        omega
    have hrest := ih hstep
    rwa [step_run] at hrest

end Task

variable {α β : Type}

/-- Two tasks hand in hand, the second one alone and the first one among others: all the names the
second has entered the first one's session has too. -/
structure Abreast (P : Pairing) (R : α → β → Prop) (x : Task α) (s : Session) (y : Task β)
    (t : Session) : Prop where
  paired : Paired P R x y
  hits : y.Hits t
  names : t.names.toList ⊆ s.names.toList

/-- A pairing by the texts that names have in the end. -/
structure Pairing.ByTexts (P : Pairing) (later later' : Names) : Prop where
  name : ∀ text i j, later.resolve? i = some text → later'.resolve? j = some text → P.name text i j
  known : ∀ i j, P.known i j → later.Same later' i j
  broken : P.broken

theorem Names.mem_toList {names : Names} {text : String} :
    text ∈ names.toList ↔ ∃ i, names.resolve? i = some text := by
  simp only [Names.resolve?_eq, List.mem_iff_getElem?]

theorem Names.mem_intern {names : Names} {text u : String} :
    u ∈ (names.intern text).2.toList ↔ u ∈ names.toList ∨ u = text := by
  unfold Names.intern
  split
  next index h =>
    refine ⟨.inl, ?_⟩
    rintro (hu | rfl)
    · exact hu
    · exact Names.mem_toList.mpr ⟨index, Names.resolve?_of_find? h⟩
  next => simp [Names.toList]

/-- Both tasks are done, or none is. -/
theorem Paired.value? {P : Pairing} {R : α → β → Prop} {x : Task α} {y : Task β}
    (h : Paired P R x y) : Option.Rel R x.value? y.value? := by
  cases h with
  | done hab => exact .some hab
  | intern _ _ => exact .none
  | resolve _ _ => exact .none
  | emit _ _ => exact .none
  | chain _ _ => exact .none

namespace Abreast

variable {P : Pairing} {R : α → β → Prop} {x : Task α} {y : Task β} {s t : Session}

/-- What the others enter does no harm. -/
theorem mono (h : Abreast P R x s y t) {s' : Session} (hs : s.names.Extends s'.names) :
    Abreast P R x s' y t :=
  ⟨h.paired, h.hits, fun _ ht => hs.mem (h.names ht)⟩

/-- A name that the second task finds, the first one finds too. -/
theorem resolve?_eq {later later' : Names} (hdistinct : later.Distinct)
    (hs : s.names.Extends later) (ht : t.names.Extends later')
    (hnames : t.names.toList ⊆ s.names.toList) {i j : Nat} {text : String}
    (hknown : later.Same later' i j) (hj : t.names.resolve? j = some text) :
    s.names.resolve? i = some text := by
  obtain ⟨text', hi, hj'⟩ := hknown
  have hsame : text' = text := Option.some.inj (hj'.symm.trans (ht.resolve? hj))
  subst hsame
  obtain ⟨k, hk⟩ := Names.mem_toList.mp (hnames (Names.mem_toList.mpr ⟨j, hj⟩))
  rwa [hdistinct.index_eq hi (hs.resolve? hk)]

/-- After a step of each, two tasks are abreast again, and what they emitted corresponds. -/
theorem step {later later' : Names} (hP : P.ByTexts later later') (hdistinct : later.Distinct)
    (h : Abreast P R x s y t) (hs : (x.step s).2.names.Extends later)
    (ht : (y.step t).2.names.Extends later') :
    Abreast P R (x.step s).1 (x.step s).2 (y.step t).1 (y.step t).2 ∧
      ∃ ds ds', (x.step s).2.log.held.toList = s.log.held.toList ++ ds ∧
        (y.step t).2.log.held.toList = t.log.held.toList ++ ds' ∧ Forall₂ P.diag ds ds' := by
  obtain ⟨hpaired, hhits, hnames⟩ := h
  have hquiet {s t : Session} : ∃ ds ds', s.log.held.toList = s.log.held.toList ++ ds ∧
      t.log.held.toList = t.log.held.toList ++ ds' ∧ Forall₂ P.diag ds ds' :=
    ⟨[], [], (List.append_nil _).symm, (List.append_nil _).symm, .nil⟩
  induction hpaired generalizing s t with
  | done hab => exact ⟨⟨.done hab, trivial, hnames⟩, hquiet⟩
  | @intern R text hname =>
    refine ⟨⟨.done (hname _ _ (hP.name text _ _ ?_ ?_)), trivial, fun u hu => ?_⟩, hquiet⟩
    · exact hs.resolve? (Names.resolve?_intern s.names text)
    · exact ht.resolve? (Names.resolve?_intern t.names text)
    · exact Names.mem_intern.mpr ((Names.mem_intern.mp hu).imp_left fun hu => hnames hu)
  | @resolve R i j hknown hsame =>
    obtain ⟨text, hj⟩ := hhits
    have hi : s.names.resolve? i = some text :=
      resolve?_eq hdistinct hs ht hnames (hP.known i j hknown) hj
    refine ⟨⟨.done ?_, trivial, hnames⟩, hquiet⟩
    show R (s.names.resolve i) (t.names.resolve j)
    rw [Names.resolve_eq_ok hi, Names.resolve_eq_ok hj]
    exact hsame text
  | @emit R d d' hdiag hres =>
    refine ⟨⟨.done (hres fun _ => hP.broken), trivial, hnames⟩, [d], [d'], ?_, ?_, .cons hdiag .nil⟩
    · exact Array.toList_push
    · exact Array.toList_push
  | @chain _ _ _ _ Q R x y f g hfirst hnext ihFirst _ =>
    have hvalues := hfirst.value?
    cases hx : x.value? with
    | some a =>
      rw [hx] at hvalues
      cases hy : y.value? with
      | none => rw [hy] at hvalues; cases hvalues
      | some b =>
        rw [hy] at hvalues
        obtain rfl := Program.eq_done_of_value? hx
        obtain rfl := Program.eq_done_of_value? hy
        cases hvalues with
        | some hab => exact ⟨⟨hnext a b hab, hhits.2, hnames⟩, hquiet⟩
    | none =>
      rw [hx] at hvalues
      cases hy : y.value? with
      | some b => rw [hy] at hvalues; cases hvalues
      | none =>
        rw [Task.step_chain hx] at hs ⊢
        rw [Task.step_chain hy] at ht ⊢
        obtain ⟨habreast, hemitted⟩ := ihFirst hs ht hhits.1 hnames
        refine ⟨⟨.chain habreast.paired hnext, ⟨habreast.hits, ?_⟩, habreast.names⟩, hemitted⟩
        rw [Task.step_run]
        exact hhits.2

end Abreast

end Netlist
