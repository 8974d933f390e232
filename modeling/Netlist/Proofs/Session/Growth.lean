import Netlist.Session
import Mathlib.Data.List.Infix

/-!
What work does to a session. Names are only added, so an index keeps its text; a text entered twice
keeps its index. The log grows by the diagnostics a task emits, in order, and counts the errors
among them. All of it holds for every task, by induction on how the task is built.
-/
namespace Netlist

namespace Names

/-- Every index of `names` has the same text later. -/
def Extends (names later : Names) : Prop := names.toList <+: later.toList

/-- No text has two indices. -/
def Distinct (names : Names) : Prop := names.toList.Nodup

theorem Extends.refl (names : Names) : names.Extends names := List.prefix_refl _

theorem Extends.trans {a b c : Names} (hab : a.Extends b) (hbc : b.Extends c) : a.Extends c :=
  List.IsPrefix.trans hab hbc

theorem resolve?_eq (names : Names) (index : Nat) :
    names.resolve? index = names.toList[index]? := by
  simp [resolve?, toList]

theorem Extends.resolve? {names later : Names} (h : names.Extends later) {index : Nat}
    {text : String} (hindex : names.resolve? index = some text) :
    later.resolve? index = some text := by
  obtain ⟨more, hmore⟩ := h
  rw [resolve?_eq] at hindex ⊢
  have hlt : index < names.toList.length := (List.getElem?_eq_some_iff.mp hindex).1
  rw [← hmore, List.getElem?_append_left hlt, hindex]

theorem resolve_eq_ok {names : Names} {index : Nat} {text : String}
    (h : names.resolve? index = some text) : names.resolve index = .ok text := by
  simp [resolve, h]

theorem Distinct.index_eq {names : Names} (h : names.Distinct) {i j : Nat} {text : String}
    (hi : names.resolve? i = some text) (hj : names.resolve? j = some text) : i = j := by
  rw [resolve?_eq] at hi hj
  have hlt : i < names.toList.length := (List.getElem?_eq_some_iff.mp hi).1
  exact (List.getElem?_inj hlt h).mp (hi.trans hj.symm)

theorem resolve?_of_find? {names : Names} {text : String} {index : Nat}
    (h : names.find? text = some index) : names.resolve? index = some text := by
  obtain ⟨i, hi, rfl⟩ := Option.map_eq_some_iff.mp h
  have htext := (Array.finIdxOf?_eq_some_iff.mp hi).1
  simpa [resolve?] using htext

theorem extends_intern (names : Names) (text : String) : names.Extends (names.intern text).2 := by
  unfold intern
  split
  · exact Extends.refl names
  · simp [Extends, toList]

theorem resolve?_intern (names : Names) (text : String) :
    (names.intern text).2.resolve? (names.intern text).1 = some text := by
  unfold intern
  split
  next index h => exact resolve?_of_find? h
  next => simp [resolve?]

theorem find?_eq (names : Names) (text : String) :
    names.find? text = names.toList.findIdx? (· == text) :=
  List.idxOf?_toArray text names.texts.toList

theorem find?_intern (names : Names) (text : String) :
    (names.intern text).2.find? text = some (names.intern text).1 := by
  unfold intern
  split
  next index h => exact h
  next hnone =>
    rw [find?_eq] at hnone ⊢
    rw [toList, Array.toList_push, List.findIdx?_append, show names.texts.toList.findIdx? _ = none
      from hnone]
    simp

/-- An index found once is found later. -/
theorem Extends.find? {names later : Names} (h : names.Extends later) {index : Nat}
    {text : String} (hindex : names.find? text = some index) :
    later.find? text = some index := by
  obtain ⟨more, hmore⟩ := h
  rw [find?_eq] at hindex ⊢
  rw [← hmore, List.findIdx?_append, hindex, Option.some_or]

theorem distinct_intern {names : Names} (h : names.Distinct) (text : String) :
    (names.intern text).2.Distinct := by
  unfold intern
  split
  next => exact h
  next hnone =>
    have hnew : text ∉ names.texts := by simpa [find?] using hnone
    have hold : names.texts.toList.Nodup := h
    simp only [Distinct, toList, Array.toList_push, List.nodup_append, List.mem_singleton,
      Array.mem_toList_iff]
    refine ⟨hold, List.pairwise_singleton _ _, ?_⟩
    rintro a ha b rfl rfl
    exact hnew ha

theorem distinct_empty : ({} : Names).Distinct := List.nodup_nil

end Names

namespace Task

/-- The diagnostics a task emits when it runs alone from a session. -/
def emitted : {α : Type} → Task α → Session → List Diagnostic
  | _, .done _, _ => []
  | _, .call (.emit d), _ => [d]
  | _, .call (.intern _), _ => []
  | _, .call (.resolve _), _ => []
  | _, .chain first next, s =>
    emitted first s ++ emitted (next (Task.run first s).1) (Task.run first s).2

variable {α β : Type}

@[simp] theorem run_done (a : α) (s : Session) : Task.run (.done a) s = (a, s) := rfl

@[simp] theorem run_pure (a : α) (s : Session) : Task.run (pure a) s = (a, s) := rfl

@[simp] theorem run_chain (x : Task α) (f : α → Task β) (s : Session) :
    Task.run (.chain x f) s = Task.run (f (x.run s).1) (x.run s).2 := rfl

@[simp] theorem run_bind (x : Task α) (f : α → Task β) (s : Session) :
    Task.run (x >>= f) s = Task.run (f (x.run s).1) (x.run s).2 := rfl

@[simp] theorem run_intern (text : String) (s : Session) :
    Task.run (.call (.intern text)) s = s.intern text := rfl

@[simp] theorem run_resolve (index : Nat) (s : Session) :
    Task.run (.call (.resolve index)) s = (s.names.resolve index, s) := rfl

@[simp] theorem run_emit (d : Diagnostic) (s : Session) :
    Task.run (.call (.emit d)) s = ((), s.emit d) := rfl

theorem names_extends (x : Task α) (s : Session) : s.names.Extends (x.run s).2.names := by
  induction x generalizing s with
  | done a => exact Names.Extends.refl _
  | call op =>
    cases op with
    | intern text => exact Names.extends_intern s.names text
    | resolve index => exact Names.Extends.refl _
    | emit d => exact Names.Extends.refl _
  | chain first next ihFirst ihNext =>
    exact (ihFirst s).trans (ihNext _ _)

theorem extends_of_run {x : Task α} {a : α} {s t : Session} (h : x.run s = (a, t)) :
    s.names.Extends t.names := by
  have hgrows := names_extends x s
  rwa [h] at hgrows

theorem names_distinct (x : Task α) {s : Session} (hs : s.names.Distinct) :
    (x.run s).2.names.Distinct := by
  induction x generalizing s with
  | done a => exact hs
  | call op =>
    cases op with
    | intern text => exact Names.distinct_intern hs text
    | resolve index => exact hs
    | emit d => exact hs
  | chain first next ihFirst ihNext => exact ihNext _ (ihFirst hs)

/-- The log afterwards is the log before with what was emitted behind it. -/
theorem held_run (x : Task α) (s : Session) :
    (x.run s).2.log.held.toList = s.log.held.toList ++ x.emitted s := by
  induction x generalizing s with
  | done a => simp [emitted]
  | call op => cases op <;> simp [emitted, Session.intern, Session.emit, Log.emit]
  | chain first next ihFirst ihNext => simp [emitted, ihNext, ihFirst]

/-- The error count grows by the number of errors emitted. -/
theorem errors_run (x : Task α) (s : Session) :
    (x.run s).2.log.errors =
      s.log.errors + (x.emitted s).countP (fun d => d.severity = .error) := by
  induction x generalizing s with
  | done a => simp [emitted]
  | call op =>
    cases op with
    | intern text => simp [emitted, Session.intern]
    | resolve index => simp [emitted]
    | emit d =>
      by_cases hd : d.severity = .error <;> simp [emitted, Session.emit, Log.emit, hd]
  | chain first next ihFirst ihNext =>
    simp only [run_chain, emitted, ihNext, ihFirst, List.countP_append]
    omega

/-- Work that emits no errors leaves their count as it is. -/
theorem errors_eq {x : Task α} {s : Session} (h : ∀ d ∈ x.emitted s, d.severity ≠ .error) :
    (x.run s).2.log.errors = s.log.errors := by
  have hnone : (x.emitted s).countP (fun d => d.severity = .error) = 0 :=
    List.countP_eq_zero.mpr fun d hd => by simpa using h d hd
  rw [errors_run, hnone, Nat.add_zero]

/-- Work that emits nothing leaves the log as it is. -/
theorem log_eq {x : Task α} {s : Session} (h : x.emitted s = []) : (x.run s).2.log = s.log := by
  have hheld := held_run x s
  have herrors := errors_run x s
  rw [h] at hheld herrors
  cases hlog : (x.run s).2.log
  cases hlog' : s.log
  simp_all

theorem errors_mono (x : Task α) (s : Session) : s.log.errors ≤ (x.run s).2.log.errors := by
  rw [errors_run]
  omega

theorem emitted_emitAll (ds : List Diagnostic) (s : Session) : (emitAll ds).emitted s = ds := by
  induction ds generalizing s with
  | nil => rfl
  | cons d ds ih => exact congrArg (d :: ·) (ih _)

theorem errors_ne_of_mem {x : Task α} {s : Session} {d : Diagnostic} (hd : d ∈ x.emitted s)
    (herror : d.severity = .error) : (x.run s).2.log.errors ≠ s.log.errors := by
  have hpos : 0 < (x.emitted s).countP (fun d => d.severity = .error) :=
    List.countP_pos_iff.mpr ⟨d, hd, by simpa using herror⟩
  rw [errors_run]
  omega

end Task

namespace SessionM

variable {α β : Type} {x : SessionM α} {f : α → SessionM β} {a : α} {s t : Session}

/-- Work that succeeds hands its result and its session on. -/
theorem run_bind (h : x.run.run s = (.ok a, t)) : (x >>= f).run.run s = (f a).run.run t := by
  show Task.run (.chain x.run _) s = _
  rw [Task.run_chain, h]
  rfl

theorem emitted_bind (h : x.run.run s = (.ok a, t)) :
    (x >>= f).run.emitted s = x.run.emitted s ++ (f a).run.emitted t := by
  show Task.emitted (.chain x.run _) s = _
  rw [Task.emitted, h]
  rfl

theorem run_lift (y : Task α) (s : Session) :
    (ExceptT.lift y : SessionM α).run.run s = (.ok (y.run s).1, (y.run s).2) := rfl

theorem emitted_lift (y : Task α) (s : Session) :
    (ExceptT.lift y : SessionM α).run.emitted s = y.emitted s :=
  List.append_nil _

end SessionM

end Netlist
