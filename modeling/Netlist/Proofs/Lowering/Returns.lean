import Netlist.Lowering.Module
import Netlist.Proofs.Session.Sequence
import Mathlib.Data.List.Forall2

/-!
Lowerings that give a value. Such a run splits into the runs of its parts, each with a value, and
names are only added on the way. A name is lowered to what it is without its backslash.
-/
namespace Netlist

/-- The text of a name without the backslash of an escaped one. -/
def bareText (text : String) : String :=
  match text.toList with
  | '\\' :: bare => String.ofList bare
  | _ => text

/-- The name `bare` is the name `i` without its backslash; it is `i` itself if that has none. -/
def Names.Bare (names : Names) (i bare : Nat) : Prop :=
  ∃ text, names.resolve? i = some text ∧ names.resolve? bare = some (bareText text) ∧
    (bareText text = text → bare = i)

theorem Names.Bare.mono {names later : Names} {i bare : Nat} (h : names.Bare i bare)
    (hlater : names.Extends later) : later.Bare i bare := by
  obtain ⟨text, hi, hbare, hsame⟩ := h
  exact ⟨text, hlater.resolve? hi, hlater.resolve? hbare, hsame⟩

namespace Lowering

open List (Forall₂)

variable {α β γ : Type}

/-- The lowering takes the session from `s` to `t` and gives `a`. -/
def Returns (x : LowerM α) (s : Session) (a : α) (t : Session) : Prop :=
  x.run.run.run s = (.ok (.ok a), t)

namespace Returns

variable {x : LowerM α} {f : α → LowerM β} {a : α} {b : β} {s t u : Session}

theorem bind (hx : Returns x s a t) (hf : Returns (f a) t b u) : Returns (x >>= f) s b u :=
  (SessionM.run_bind (x := x.run) hx).trans hf

theorem of_pure {a' : α} (h : Returns (Pure.pure a') s a t) : a' = a ∧ s = t := by
  cases h
  exact ⟨rfl, rfl⟩

theorem of_bind (h : Returns (x >>= f) s b u) :
    ∃ a t, Returns x s a t ∧ Returns (f a) t b u := by
  obtain ⟨r, t, hfirst, hrest⟩ := SessionM.exists_of_bind (x := x.run) h
  cases r with
  | error fault => cases hrest
  | ok a => exact ⟨a, t, hfirst, hrest⟩

theorem of_map {g : α → β} (h : Returns (x >>= fun a => Pure.pure (g a)) s b u) :
    ∃ a, Returns x s a u ∧ b = g a := by
  obtain ⟨a, t, hfirst, hrest⟩ := of_bind h
  obtain ⟨rfl, rfl⟩ := of_pure hrest
  exact ⟨a, hfirst, rfl⟩

theorem of_lift {x : SessionM α} (h : Returns (ExceptT.lift x) s a t) :
    x.run.run s = (.ok a, t) := by
  obtain ⟨a', u, hfirst, hrest⟩ := SessionM.exists_of_bind (x := x) h
  cases hrest
  exact hfirst

theorem of_bindLift {x : SessionM α} (h : Returns (ExceptT.lift x >>= f) s b u) :
    ∃ a t, x.run.run s = (.ok a, t) ∧ Returns (f a) t b u := by
  obtain ⟨a, t, hfirst, hrest⟩ := of_bind h
  exact ⟨a, t, of_lift hfirst, hrest⟩

theorem names_extends (h : Returns x s a t) : s.names.Extends t.names := Task.extends_of_run h

/-- A list that is lowered is lowered item by item. -/
theorem steps_of_mapM {f : γ → LowerM α} {cs : List γ} {as : List α}
    (h : Returns (cs.mapM f) s as t) : Steps (fun c => Returns (f c)) cs s as t :=
  Steps.of_mapM (fun _ => Returns) of_pure of_bind h

theorem of_mapM {R : γ → α → Prop} {f : γ → LowerM α} {cs : List γ} {as : List α}
    (h : Returns (cs.mapM f) s as t)
    (hstep : ∀ c ∈ cs, ∀ u a v, s.names.Extends u.names → Returns (f c) u a v →
      v.names.Extends t.names → R c a) : Forall₂ R cs as :=
  (steps_of_mapM h).forall₂ (fun _ _ _ _ => names_extends) hstep

end Returns

/-- A name that is lowered is known, and its bare form is known afterwards. -/
theorem identifier_bare {i : Syntax.Identifier} {e : Design.Expr} {s t : Session}
    (h : (identifier i).run.run s = (.ok e, t)) :
    ∃ bare, e = .id bare ∧ t.names.Bare i.name bare := by
  obtain ⟨text, u, hresolve, hrest⟩ := SessionM.exists_of_bind h
  obtain ⟨hfound, rfl⟩ : s.names.resolve i.name = .ok text ∧ s = u := Prod.mk.inj hresolve
  have hknown : s.names.resolve? i.name = some text := by
    unfold Names.resolve at hfound
    split at hfound
    next _ hsome => exact hsome.trans (congrArg some (Except.ok.inj hfound))
    next => cases hfound
  split at hrest
  next bare htext =>
    cases hrest
    have hbare : bareText text = String.ofList bare := by simp only [bareText, htext]
    refine ⟨_, rfl, text, (Names.extends_intern _ _).resolve? hknown, ?_, fun hsame => ?_⟩
    · rw [hbare]
      exact Names.resolve?_intern s.names _
    · have hlength := congrArg (fun t => t.toList.length) (hbare.symm.trans hsame)
      simp [htext] at hlength
  next hplain =>
    cases hrest
    have hbare : bareText text = text := by
      unfold bareText
      split
      next bare htext => exact absurd htext (hplain bare)
      next => rfl
    exact ⟨_, rfl, text, hknown, hbare.symm ▸ hknown, fun _ => rfl⟩

section Statements

variable {ctx : Context} {s t : Session}

/-- What an instance is made of. -/
theorem Returns.of_hierarchicalInstance {module : Syntax.Identifier} {shared : List Design.Expr}
    {i : Syntax.Instance} {d : Design.Instance}
    (h : Returns (hierarchicalInstance ctx module shared i) s d t) :
    d.generics = shared ∧ d.span = i.span ∧ ∃ base u v w,
      Returns (portList ctx i.connections) s d.ports u ∧
      (identifier i.name.name).run.run u = (.ok base, v) ∧
      Returns (dimensions ctx base i.name.dimensions) v d.name w ∧
      (identifier module).run.run w = (.ok d.module, t) := by
  obtain ⟨ports, u, hports, h⟩ := of_bind h
  obtain ⟨base, v, hbase, h⟩ := of_bindLift h
  obtain ⟨name, w, hname, h⟩ := of_bind h
  obtain ⟨moduleName, _, hmodule, h⟩ := of_bindLift h
  obtain ⟨rfl, rfl⟩ := of_pure h
  exact ⟨rfl, rfl, base, u, v, w, hports, hbase, hname, hmodule⟩

/-- A statement that is lowered has instances, which are lowered one after the other behind its
generic map. -/
theorem Returns.of_instantiation {stmt : Syntax.Instantiation} {is : List Design.Instance}
    (h : Returns (instantiation ctx stmt) s is t) :
    stmt.instances ≠ [] ∧ ∃ shared u, Returns (generics ctx stmt.params) s shared u ∧
      Steps (fun i => Returns (hierarchicalInstance ctx stmt.module shared i)) stmt.instances
        u is t := by
  unfold instantiation at h
  split at h
  next => cases h
  next hne =>
    obtain ⟨shared, u, hshared, hrest⟩ := of_bind h
    exact ⟨by simpa using hne, shared, u, hshared, steps_of_mapM hrest⟩

end Statements

end Lowering

end Netlist
