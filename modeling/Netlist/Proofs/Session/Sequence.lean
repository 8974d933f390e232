import Netlist.Proofs.Session.Growth

/-!
Work done item by item. If each item does its work from any session of some kind and leaves one of
that kind, so does the list, and the sessions in between are chained.
-/
namespace Netlist

variable {α γ : Type}

/-- The items of `cs` take the session from `s` to `s'` one after the other, each as `Q` says. -/
inductive Steps (Q : γ → Session → α → Session → Prop) :
    List γ → Session → List α → Session → Prop
  | nil (s : Session) : Steps Q [] s [] s
  | cons {c : γ} {cs : List γ} {a : α} {as : List α} {s t u : Session} :
      Q c s a t → Steps Q cs t as u → Steps Q (c :: cs) s (a :: as) u

theorem Steps.map {β : Type} {Q : γ → Session → α → Session → Prop}
    {R : γ → Session → β → Session → Prop} {g : α → β} {cs : List γ} {as : List α} {s t : Session}
    (h : Steps Q cs s as t) (himp : ∀ c s a t, Q c s a t → R c s (g a) t) :
    Steps R cs s (as.map g) t := by
  induction h with
  | nil s => exact .nil s
  | cons hfirst _ ih => exact .cons (himp _ _ _ _ hfirst) ih

theorem Steps.forall_mem {Q : γ → Session → α → Session → Prop} {P : α → Prop} {cs : List γ}
    {as : List α} {s t : Session} (h : Steps Q cs s as t)
    (hstep : ∀ c s a t, Q c s a t → P a) : ∀ a ∈ as, P a := by
  induction h with
  | nil s => exact List.forall_mem_nil _
  | cons hfirst _ ih => exact List.forall_mem_cons.mpr ⟨hstep _ _ _ _ hfirst, ih⟩

theorem Steps.names_extends {Q : γ → Session → α → Session → Prop} {cs : List γ} {as : List α}
    {s t : Session} (h : Steps Q cs s as t)
    (hgrows : ∀ c s a t, Q c s a t → s.names.Extends t.names) : s.names.Extends t.names := by
  induction h with
  | nil s => exact Names.Extends.refl _
  | cons hfirst _ ih => exact (hgrows _ _ _ _ hfirst).trans ih

/-- Items and results are related one by one if each step relates them, wherever on the way it
is taken. -/
theorem Steps.forall₂ {Q : γ → Session → α → Session → Prop} {R : γ → α → Prop} {cs : List γ}
    {as : List α} {s t : Session} (h : Steps Q cs s as t)
    (hgrows : ∀ c s a t, Q c s a t → s.names.Extends t.names)
    (hstep : ∀ c ∈ cs, ∀ u a v, s.names.Extends u.names → Q c u a v → v.names.Extends t.names →
      R c a) : List.Forall₂ R cs as := by
  induction h with
  | nil s => exact .nil
  | cons hfirst hrest ih =>
    refine .cons (hstep _ List.mem_cons_self _ _ _ (Names.Extends.refl _) hfirst ?_) (ih ?_)
    · exact hrest.names_extends hgrows
    · intro c hc u a v hu hQ hv
      exact hstep c (List.mem_cons_of_mem _ hc) u a v ((hgrows _ _ _ _ hfirst).trans hu) hQ hv

/-- A run over a list splits into runs over its items, for any notion of a run that splits at its
steps. -/
theorem Steps.of_mapM {m : Type → Type 1} [Monad m]
    (R : (α : Type) → m α → Session → α → Session → Prop)
    (hpure : ∀ {α : Type} {a b : α} {s t : Session}, R α (pure a) s b t → a = b ∧ s = t)
    (hbind : ∀ {α β : Type} {x : m α} {g : α → m β} {b : β} {s u : Session},
      R β (x >>= g) s b u → ∃ a t, R α x s a t ∧ R β (g a) t b u)
    {f : γ → m α} {cs : List γ} {as : List α} {s t : Session}
    (h : R (List α) (cs.mapM f) s as t) : Steps (fun c => R α (f c)) cs s as t := by
  have hloop (cs : List γ) (done : List α) (s : Session)
      (h : R (List α) (List.mapM.loop f cs done) s as t) :
      ∃ more, as = done.reverse ++ more ∧ Steps (fun c => R α (f c)) cs s more t := by
    induction cs generalizing done s with
    | nil =>
      obtain ⟨rfl, rfl⟩ := hpure h
      exact ⟨[], (List.append_nil _).symm, .nil _⟩
    | cons c cs ih =>
      obtain ⟨a, u, hfirst, hrest⟩ := hbind h
      obtain ⟨more, rfl, hsteps⟩ := ih _ _ hrest
      exact ⟨a :: more, by simp, .cons hfirst hsteps⟩
  obtain ⟨_, rfl, hsteps⟩ := hloop cs [] s h
  exact hsteps

variable {I : Session → Prop} {Q : γ → Session → α → Session → Prop} {f : γ → SessionM α}
  {cs : List γ}

theorem SessionM.mapM_run
    (h : ∀ c ∈ cs, ∀ s, I s → ∃ a t, (f c).run.run s = (.ok a, t) ∧ I t ∧ Q c s a t)
    {s : Session} (hs : I s) :
    ∃ as t, (cs.mapM f).run.run s = (.ok as, t) ∧ I t ∧ Steps Q cs s as t := by
  have hloop (done : List α) : ∃ as t,
      (List.mapM.loop f cs done).run.run s = (.ok (done.reverse ++ as), t) ∧ I t ∧
        Steps Q cs s as t := by
    induction cs generalizing s done with
    | nil => exact ⟨[], s, by rw [List.append_nil]; rfl, hs, .nil s⟩
    | cons c cs ih =>
      obtain ⟨a, t, hrun, ht, hQ⟩ := h c List.mem_cons_self s hs
      obtain ⟨as, u, hrest, hu, hsteps⟩ :=
        ih (fun c hc => h c (List.mem_cons_of_mem _ hc)) ht (a :: done)
      refine ⟨a :: as, u, ?_, hu, .cons hQ hsteps⟩
      rw [List.reverse_cons, List.append_assoc, List.singleton_append] at hrest
      exact (run_bind hrun).trans hrest
  exact hloop []

section Append

variable {f : γ → SessionM α} {cs ds : List γ} {as bs done : List α} {s t u : Session}

/-- Work that succeeds has succeeded in its first part. -/
theorem SessionM.exists_of_bind {β : Type} {x : SessionM α} {g : α → SessionM β} {b : β}
    (h : (x >>= g).run.run s = (.ok b, u)) :
    ∃ a t, x.run.run s = (.ok a, t) ∧ (g a).run.run t = (.ok b, u) := by
  rcases hfirst : x.run.run s with ⟨result, t⟩
  have hboth : (x >>= g).run.run s = ((ExceptT.bindCont g result).run t) := by
    show Task.run (.chain x.run _) s = _
    rw [Task.run_chain, hfirst]
  rw [hboth] at h
  cases result with
  | error m => cases h
  | ok a => exact ⟨a, t, rfl, h⟩

/-- A sequence that succeeds has succeeded item by item. -/
theorem SessionM.steps_of_mapM (h : (cs.mapM f).run.run s = (.ok as, t)) :
    Steps (fun c s a t => (f c).run.run s = (.ok a, t)) cs s as t := by
  refine Steps.of_mapM (m := SessionM) (fun _ x s a t => x.run.run s = (.ok a, t)) ?_
    SessionM.exists_of_bind h
  intro _ a b s t h
  cases h
  exact ⟨rfl, rfl⟩

private theorem loop_append (h : (List.mapM.loop f cs done).run.run s = (.ok as, t)) :
    (List.mapM.loop f (cs ++ ds) done).run.run s =
      (List.mapM.loop f ds as.reverse).run.run t := by
  induction cs generalizing done s with
  | nil =>
    cases h
    rw [List.nil_append, List.reverse_reverse]
  | cons c cs ih =>
    obtain ⟨a, v, hfirst, hrest⟩ := SessionM.exists_of_bind h
    exact (SessionM.run_bind hfirst).trans (ih hrest)

private theorem loop_done (before : List α)
    (h : (List.mapM.loop f cs done).run.run s = (.ok as, t)) :
    (List.mapM.loop f cs (done ++ before.reverse)).run.run s = (.ok (before ++ as), t) := by
  induction cs generalizing done s with
  | nil =>
    cases h
    have hdone : (done ++ before.reverse).reverse = before ++ done.reverse := by
      rw [List.reverse_append, List.reverse_reverse]
    rw [← hdone]
    rfl
  | cons c cs ih =>
    obtain ⟨a, v, hfirst, hrest⟩ := SessionM.exists_of_bind h
    exact (SessionM.run_bind hfirst).trans (ih hrest)

/-- A sequence is its first part and then the rest. -/
theorem SessionM.mapM_append (h : (cs.mapM f).run.run s = (.ok as, t))
    (h' : (ds.mapM f).run.run t = (.ok bs, u)) :
    ((cs ++ ds).mapM f).run.run s = (.ok (as ++ bs), u) :=
  (loop_append h).trans (loop_done as h')

end Append

end Netlist
