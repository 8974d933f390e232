import Netlist.Lowering.Output
import Netlist.Proofs.Lowering.Visits

/-!
Statements lowered one after the other into one output. A call does what lowering the statement by
itself does and then puts all of its instances behind the others, or none. Each instance is made
from its own connections, name and dimensions, and all of a statement's have its generic map. This
holds of trees that no parser made, as long as the session knows their names and texts.
-/
namespace Netlist

open List (Forall₂)
open Design (Expr)

theorem Design.Expr.baseName?_foldl_index (bounds : List Expr) (base : Expr) :
    (bounds.foldl .index base).baseName? = base.baseName? := by
  induction bounds generalizing base with
  | nil => rfl
  | cons b bounds ih => exact ih (.index base b)

namespace Lowering

variable {α β : Type} {ctx : Context} {names later : Names} {s t : Session}

section Runs

/-- How a lowering goes on after its first part. -/
theorem run_bind (x : LowerM α) (f : α → LowerM β) (s : Session) :
    (x >>= f).run.run.run s =
      match x.run.run.run s with
      | (.error m, t) => (.error m, t)
      | (.ok (.error e), t) => (.ok (.error e), t)
      | (.ok (.ok a), t) => (f a).run.run.run t := by
  show Task.run (.chain x.run.run _) s = _
  rw [Task.run_chain]
  rcases x.run.run.run s with ⟨m | e | a, t⟩ <;> rfl

theorem run_bind_congr {x : LowerM α} {f g : α → LowerM β}
    (h : ∀ a t, Returns x s a t → (f a).run.run.run t = (g a).run.run.run t) :
    (x >>= f).run.run.run s = (x >>= g).run.run.run s := by
  rw [run_bind, run_bind]
  split
  next => rfl
  next => rfl
  next a t hrun => exact h a t hrun

/-- The output stays as it is until the rest of the work has it. -/
theorem OutputM.run_lift_bind (x : LowerM α) (f : α → OutputM β) (out : List Design.Instance)
    (s : Session) :
    ((OutputM.lift x >>= f).run.run out).run.run s =
      match x.run.run.run s with
      | (.error m, t) => (.error m, t)
      | (.ok (.error e), t) => (.ok (.error e, out), t)
      | (.ok (.ok a), t) => ((f a).run.run out).run.run t := by
  show Task.run (.chain (.chain x.run.run _) _) s = _
  rw [Task.run_chain, Task.run_chain]
  rcases x.run.run.run s with ⟨m | e | a, t⟩ <;> rfl

/-- The outcome of a call, from that of the statement by itself. -/
def appended (out : List Design.Instance) :
    Except Fault (List Design.Instance) → Except Fault Unit × List Design.Instance
  | .ok is => (.ok (), out ++ is)
  | .error f => (.error f, out)

/-- Copies of the first instance's generic map are the shared one: the first has taken that. -/
theorem instancesAfter_run (ctx : Context) (module : Syntax.Identifier)
    {shared generics : List Expr} {done : List Design.Instance}
    (h : (nextGenerics shared done).1 = generics) (is : List Syntax.Instance) (s : Session) :
    (instancesAfter ctx module shared done is).run.run.run s =
      (List.mapM.loop (hierarchicalInstance ctx module generics) is done.reverse).run.run.run
        s := by
  induction is generalizing shared done s with
  | nil => rw [instancesAfter, List.mapM.loop, List.reverse_reverse]
  | cons i is ih =>
    simp only [instancesAfter, List.mapM.loop, h]
    refine run_bind_congr fun next t hnext => ?_
    obtain ⟨hgenerics, -⟩ := Returns.of_hierarchicalInstance hnext
    have hagain : (nextGenerics (nextGenerics shared done).2 (done ++ [next])).1 = generics := by
      cases done with
      | nil => exact hgenerics
      | cons first rest => exact h
    rw [ih hagain, List.reverse_append]
    rfl

theorem append_run (ctx : Context) (stmt : Syntax.Instantiation) (out : List Design.Instance)
    (s : Session) :
    ((append ctx stmt).run.run out).run.run s =
      match (instantiation ctx stmt).run.run.run s with
      | (.error m, t) => (.error m, t)
      | (.ok r, t) => (.ok (appended out r), t) := by
  unfold append instantiation
  split
  next => rfl
  next =>
    rw [OutputM.run_lift_bind, run_bind]
    rcases (generics ctx stmt.params).run.run.run s with ⟨m | e | shared, t⟩
    · rfl
    · rfl
    · have hrest := instancesAfter_run ctx stmt.module
        (show (nextGenerics shared []).1 = shared from rfl) stmt.instances t
      have hloop : List.mapM.loop (hierarchicalInstance ctx stmt.module shared) stmt.instances
          (List.reverse []) = stmt.instances.mapM (hierarchicalInstance ctx stmt.module shared) :=
        rfl
      rw [hloop] at hrest
      simp only [OutputM.run_lift_bind, hrest]
      rcases (stmt.instances.mapM (hierarchicalInstance ctx stmt.module shared)).run.run.run t with
        ⟨m | e | is, u⟩ <;> rfl

end Runs

section Parts

/-- In every session with these names the lowering gives `a`, and enters no further name. -/
def Yields (names : Names) (x : LowerM α) (a : α) : Prop :=
  ∀ s, names.Extends s.names → ∃ t, Returns x s a t ∧ t.names = s.names

/-- In every session with these names the lowering has a value. -/
def Translates (names : Names) (x : LowerM α) : Prop :=
  ∀ s, names.Extends s.names → ∃ a t, Returns x s a t

variable {x : LowerM α} {vs : List Syntax.Visit}

theorem Yields.mono {a : α} (h : Yields names x a) (hlater : names.Extends later) :
    Yields later x a := fun s hs => h s (hlater.trans hs)

/-- What was given once is given again. -/
theorem Follows.yields (h : Follows ctx names x vs) {a : α} (hs : names.Extends s.names)
    (hrun : Returns x s a t) (hlater : t.names.Extends later) : Yields later x a := by
  intro u hu
  obtain ⟨-, -, -, hhits, -⟩ := h s hs
  have hrun : x.run.run.run s = (.ok (.ok a), t) := hrun
  have hknown : (x.run.run.run s).2.names.Extends u.names := by
    rw [hrun]
    exact hlater.trans hu
  obtain ⟨hresult, hnames⟩ := Task.run_again x.run.run hhits hknown
  rw [hrun] at hresult
  have hagain : x.run.run.run u = (.ok (.ok a), (x.run.run.run u).2) := Prod.ext hresult rfl
  exact ⟨_, hagain, hnames⟩

/-- A lowering has a value in all sessions or in none. -/
theorem Follows.translates_iff (h : Follows ctx names x vs) :
    Translates names x ↔ firstFault? ctx vs = none := by
  constructor
  · intro hvalue
    obtain ⟨a, t, hrun⟩ := hvalue ⟨names, {}⟩ (Names.Extends.refl names)
    obtain ⟨r, t', hrun', -, hfault, -⟩ := h ⟨names, {}⟩ (Names.Extends.refl names)
    cases hrun'.symm.trans hrun
    exact hfault.symm
  · intro hquiet s hs
    obtain ⟨r, t, hrun, -, hfault, -⟩ := h s hs
    cases r with
    | ok a => exact ⟨a, t, hrun⟩
    | error f => cases hfault.trans hquiet

theorem Returns.of_dimensions {ds : List Syntax.Dimension} {base e : Expr}
    (h : Returns (dimensions ctx base ds) s e t) :
    ∃ bounds, e = bounds.foldl .index base ∧
      Steps (fun d => Returns (dimension ctx d)) ds s bounds t := by
  induction ds generalizing base s with
  | nil =>
    obtain ⟨rfl, rfl⟩ := of_pure h
    exact ⟨[], rfl, .nil _⟩
  | cons d ds ih =>
    obtain ⟨b, u, hfirst, hrest⟩ := of_bind h
    obtain ⟨bounds, rfl, hsteps⟩ := ih hrest
    exact ⟨b :: bounds, rfl, .cons hfirst hsteps⟩

end Parts

section Calls

/-- The generic map that all instances of a statement have. -/
def SharedBy (ctx : Context) (names : Names) (params : Option Syntax.ParamClause)
    (shared : List Expr) : Prop :=
  match params with
  | some ⟨some list, _⟩ => Yields names (paramList ctx list) shared
  | _ => shared = []

/-- What is in the output for an instance of a statement about `module`. -/
structure Describes (ctx : Context) (names : Names) (module : Syntax.Identifier)
    (shared : List Expr) (i : Syntax.Instance) (d : Design.Instance) : Prop where
  span : d.span = i.span
  ports : Yields names (portList ctx i.connections) d.ports
  name : ∃ bare bounds, names.Bare i.name.name.name bare ∧
    Forall₂ (fun dimension' e => Yields names (dimension ctx dimension') e) i.name.dimensions
      bounds ∧
    d.name = bounds.foldl .index (.id bare) ∧ d.name.baseName? = some bare
  module : ∃ bare, names.Bare module.name bare ∧ d.module = .id bare
  generics : d.generics = shared

/-- All parts of a statement have a value, and there is something to instantiate. -/
structure Translatable (ctx : Context) (names : Names) (stmt : Syntax.Instantiation) : Prop where
  instances : stmt.instances ≠ []
  params : Translates names (generics ctx stmt.params)
  ports : ∀ i ∈ stmt.instances, Translates names (portList ctx i.connections)
  dimensions : ∀ i ∈ stmt.instances, ∀ d ∈ i.name.dimensions, Translates names (dimension ctx d)

/-- A call takes the output from `out` to `out'`. It succeeds exactly if the statement can be
translated from the names at the start; `later` has those of the instances it puts there. -/
inductive Appends (ctx : Context) (names later : Names) (stmt : Syntax.Instantiation) :
    Except Fault Unit → (out out' : List Design.Instance) → Prop
  | done {out is : List Design.Instance} {shared : List Expr} : Translatable ctx names stmt →
      SharedBy ctx later stmt.params shared →
      Forall₂ (Describes ctx later stmt.module shared) stmt.instances is →
      Appends ctx names later stmt (.ok ()) out (out ++ is)
  | failed {out : List Design.Instance} (f : Fault) : ¬ Translatable ctx names stmt →
      Appends ctx names later stmt (.error f) out out

/-- Calls for one statement after the other, into one output. -/
inductive AppendsAll (ctx : Context) (names later : Names) :
    List Syntax.Instantiation → List (Except Fault Unit) → (out out' : List Design.Instance) → Prop
  | nil {out : List Design.Instance} : AppendsAll ctx names later [] [] out out
  | cons {stmt : Syntax.Instantiation} {stmts : List Syntax.Instantiation} {r : Except Fault Unit}
      {rs : List (Except Fault Unit)} {out mid out' : List Design.Instance} :
      Appends ctx names later stmt r out mid → AppendsAll ctx names later stmts rs mid out' →
      AppendsAll ctx names later (stmt :: stmts) (r :: rs) out out'

theorem firstFault?_flatMap {visits : α → List Syntax.Visit} {as : List α} :
    firstFault? ctx (as.flatMap visits) = none ↔ ∀ a ∈ as, firstFault? ctx (visits a) = none := by
  simp only [firstFault?, List.findSome?_eq_none_iff, List.mem_flatMap]
  constructor
  · exact fun h a ha v hv => h v ⟨a, ha, hv⟩
  · rintro h v ⟨a, ha, hv⟩
    exact h a ha v hv

theorem firstFault?_identifier (i : Syntax.Identifier) : firstFault? ctx i.visits = none := rfl

/-- Names have no faults of their own. -/
theorem firstFault?_instance {module : Syntax.Identifier} {i : Syntax.Instance} :
    firstFault? ctx (i.visits module) = none ↔ firstFault? ctx i.connections.visits = none ∧
      ∀ d ∈ i.name.dimensions, firstFault? ctx d.visits = none := by
  simp only [Syntax.Instance.visits, firstFault?_append, firstFault?_identifier,
    Option.or_eq_none_iff, firstFault?_flatMap, and_true, true_and]

section Served

variable {stmt : Syntax.Instantiation}

/-- What a statement with instances asks for, part by part. -/
theorem served_parts (hne : stmt.instances ≠ []) (h : ∀ v ∈ stmt.visits, Served ctx names v) :
    (∀ v ∈ stmt.params.toList.flatMap Syntax.ParamClause.visits, Served ctx names v) ∧
      ∀ i ∈ stmt.instances, ∀ v ∈ i.visits stmt.module, Served ctx names v := by
  have hcond : ¬ stmt.instances.isEmpty = true := by simpa using hne
  rw [Syntax.Instantiation.visits, if_neg hcond] at h
  obtain ⟨hparams, hinstances⟩ := List.forall_mem_append.mp h
  exact ⟨hparams, fun i hi v hv => hinstances v (List.mem_flatMap.mpr ⟨i, hi, hv⟩)⟩

theorem served_instance {module : Syntax.Identifier} {i : Syntax.Instance}
    (h : ∀ v ∈ i.visits module, Served ctx names v) :
    (∀ v ∈ i.connections.visits, Served ctx names v) ∧
      ∀ d ∈ i.name.dimensions, ∀ v ∈ d.visits, Served ctx names v := by
  obtain ⟨hports, h⟩ := List.forall_mem_append.mp h
  obtain ⟨-, h⟩ := List.forall_mem_append.mp h
  obtain ⟨hdimensions, -⟩ := List.forall_mem_append.mp h
  exact ⟨hports, fun d hd v hv => hdimensions v (List.mem_flatMap.mpr ⟨d, hd, hv⟩)⟩

/-- A statement can be translated exactly if it meets no fault. -/
theorem translatable_iff (h : ∀ v ∈ stmt.visits, Served ctx names v) :
    Translatable ctx names stmt ↔ firstFault? ctx stmt.visits = none := by
  by_cases hne : stmt.instances = []
  · refine iff_of_false (fun htranslatable => htranslatable.instances hne) ?_
    simp [Syntax.Instantiation.visits, hne, firstFault?, faultAt?]
  · obtain ⟨hparams, hinstances⟩ := served_parts hne h
    have hcond : ¬ stmt.instances.isEmpty = true := by simpa using hne
    rw [Syntax.Instantiation.visits, if_neg hcond, firstFault?_append, Option.or_eq_none_iff]
    have hgenerics := (follows_generics hparams).translates_iff
    have hports (i : Syntax.Instance) (hi : i ∈ stmt.instances) :=
      (follows_portList (served_instance (hinstances i hi)).1).translates_iff
    have hdimension (i : Syntax.Instance) (hi : i ∈ stmt.instances) (d : Syntax.Dimension)
        (hd : d ∈ i.name.dimensions) :=
      (follows_dimension ((served_instance (hinstances i hi)).2 d hd)).translates_iff
    constructor
    · intro htranslatable
      refine ⟨hgenerics.mp htranslatable.params,
        firstFault?_flatMap.mpr fun i hi => firstFault?_instance.mpr ⟨?_, ?_⟩⟩
      · exact (hports i hi).mp (htranslatable.ports i hi)
      · exact fun d hd => (hdimension i hi d hd).mp (htranslatable.dimensions i hi d hd)
    · rintro ⟨hquiet, hall⟩
      rw [firstFault?_flatMap] at hall
      refine ⟨hne, hgenerics.mpr hquiet, fun i hi => ?_, fun i hi d hd => ?_⟩
      · exact (hports i hi).mpr (firstFault?_instance.mp (hall i hi)).1
      · exact (hdimension i hi d hd).mpr ((firstFault?_instance.mp (hall i hi)).2 d hd)

theorem sharedBy_of_returns {params : Option Syntax.ParamClause} {shared : List Expr}
    (h : ∀ v ∈ params.toList.flatMap Syntax.ParamClause.visits, Served ctx names v)
    (hs : names.Extends s.names) (hrun : Returns (generics ctx params) s shared t)
    (hlater : t.names.Extends later) : SharedBy ctx later params shared := by
  match params with
  | none => exact (Returns.of_pure hrun).1.symm
  | some ⟨none, _⟩ => exact (Returns.of_pure hrun).1.symm
  | some ⟨some list, _⟩ => exact (follows_generics h).yields hs hrun hlater

theorem describes_of_returns {module : Syntax.Identifier} {shared : List Expr}
    {i : Syntax.Instance} {d : Design.Instance}
    (h : ∀ v ∈ i.visits module, Served ctx names v) (hs : names.Extends s.names)
    (hrun : Returns (hierarchicalInstance ctx module shared i) s d t)
    (hlater : t.names.Extends later) : Describes ctx later module shared i d := by
  obtain ⟨hports, hdimensions⟩ := served_instance h
  obtain ⟨hgenerics, hspan, base, u, v, w, hportsRun, hbase, hname, hmodule⟩ :=
    Returns.of_hierarchicalInstance hrun
  obtain ⟨bare, rfl, hbare⟩ := identifier_bare hbase
  obtain ⟨moduleBare, hmoduleName, hmoduleBare⟩ := identifier_bare hmodule
  obtain ⟨bounds, hbounds, hsteps⟩ := Returns.of_dimensions hname
  -- The sessions on the way, each with the names of the one before.
  have hu : names.Extends u.names := hs.trans hportsRun.names_extends
  have hv : names.Extends v.names := hu.trans (Task.extends_of_run hbase)
  have hw : w.names.Extends later := (Task.extends_of_run hmodule).trans hlater
  have hv' : v.names.Extends later := hname.names_extends.trans hw
  have hu' : u.names.Extends later := (Task.extends_of_run hbase).trans hv'
  refine ⟨hspan, (follows_portList hports).yields hs hportsRun hu', ?_,
    ⟨moduleBare, hmoduleBare.mono hlater, hmoduleName⟩, hgenerics⟩
  refine ⟨bare, bounds, hbare.mono hv', ?_, hbounds, ?_⟩
  · refine hsteps.forall₂ (fun _ _ _ _ => Returns.names_extends) fun d hd x e y hx hd' hy => ?_
    exact (follows_dimension (hdimensions d hd)).yields (hv.trans hx) hd' (hy.trans hw)
  · rw [hbounds, Expr.baseName?_foldl_index]
    rfl

/-- The instances of a statement that is lowered, and the generic map they share. -/
theorem described_of_returns {is : List Design.Instance}
    (h : ∀ v ∈ stmt.visits, Served ctx names v) (hs : names.Extends s.names)
    (hrun : Returns (instantiation ctx stmt) s is t) :
    ∃ shared, SharedBy ctx t.names stmt.params shared ∧
      Forall₂ (Describes ctx t.names stmt.module shared) stmt.instances is := by
  obtain ⟨hne, shared, u, hshared, hsteps⟩ := Returns.of_instantiation hrun
  obtain ⟨hparams, hinstances⟩ := served_parts hne h
  have hlater := hsteps.names_extends fun _ _ _ _ => Returns.names_extends
  refine ⟨shared, sharedBy_of_returns hparams hs hshared hlater, ?_⟩
  refine hsteps.forall₂ (fun _ _ _ _ => Returns.names_extends) fun i hi v d w hv hd hw => ?_
  exact describes_of_returns (hinstances i hi) (hs.trans (hshared.names_extends.trans hv)) hd hw

/-- One call, from any session with the names that the statement needs. -/
theorem append_call (h : ∀ v ∈ stmt.visits, Served ctx names v) (hs : names.Extends s.names)
    (out : List Design.Instance) :
    ∃ r out' t, ((append ctx stmt).run.run out).run.run s = (.ok (r, out'), t) ∧
      Appends ctx names t.names stmt r out out' := by
  obtain ⟨result, t, hrun, -, hfault, -⟩ := follows_instantiation h s hs
  have hcall := append_run ctx stmt out s
  rw [hrun] at hcall
  refine ⟨_, _, t, hcall, ?_⟩
  cases result with
  | error f =>
    refine .failed f ?_
    rw [translatable_iff h, ← hfault]
    nofun
  | ok is =>
    obtain ⟨shared, hshared, his⟩ := described_of_returns h hs hrun
    exact .done ((translatable_iff h).mpr hfault.symm) hshared his

end Served

theorem SharedBy.mono {params : Option Syntax.ParamClause} {shared : List Expr}
    (h : SharedBy ctx names params shared) (hlater : names.Extends later) :
    SharedBy ctx later params shared := by
  match params with
  | none => exact h
  | some ⟨none, _⟩ => exact h
  | some ⟨some list, _⟩ => exact Yields.mono h hlater

theorem Describes.mono {module : Syntax.Identifier} {shared : List Expr} {i : Syntax.Instance}
    {d : Design.Instance} (h : Describes ctx names module shared i d)
    (hlater : names.Extends later) : Describes ctx later module shared i d := by
  obtain ⟨bare, bounds, hbare, hbounds, hname⟩ := h.name
  obtain ⟨moduleBare, hmodule, hmoduleName⟩ := h.module
  refine ⟨h.span, h.ports.mono hlater, ⟨bare, bounds, hbare.mono hlater, ?_, hname⟩,
    ⟨moduleBare, hmodule.mono hlater, hmoduleName⟩, h.generics⟩
  exact hbounds.imp fun _ _ hyields => hyields.mono hlater

theorem Appends.mono {names' : Names} {stmt : Syntax.Instantiation} {r : Except Fault Unit}
    {out out' : List Design.Instance} (h : Appends ctx names names' stmt r out out')
    (hlater : names'.Extends later) : Appends ctx names later stmt r out out' := by
  cases h with
  | done htranslatable hshared his =>
    exact .done htranslatable (hshared.mono hlater) (his.imp fun _ _ hd => hd.mono hlater)
  | failed f hnot => exact .failed f hnot

/-- Calls one after the other, behind those that gave the outcomes in `done`. -/
theorem appendAll_calls {stmts : List Syntax.Instantiation}
    (h : ∀ stmt ∈ stmts, ∀ v ∈ stmt.visits, Served ctx names v) (hs : names.Extends s.names)
    (done : List (Except Fault Unit)) (out : List Design.Instance) :
    ∃ rs out' t, ((List.mapM.loop (fun stmt => (append ctx stmt).run) stmts done).run
        out).run.run s = (.ok (done.reverse ++ rs, out'), t) ∧
      AppendsAll ctx names t.names stmts rs out out' := by
  induction stmts generalizing s done out with
  | nil =>
    refine ⟨[], out, s, ?_, .nil⟩
    rw [List.append_nil]
    rfl
  | cons stmt stmts ih =>
    obtain ⟨hfirst, hrest⟩ := List.forall_mem_cons.mp h
    obtain ⟨r, mid, t, hrun, hcall⟩ := append_call hfirst hs out
    have hgrows : s.names.Extends t.names := Task.extends_of_run hrun
    obtain ⟨rs, out', u, hmore, hcalls⟩ := ih hrest (hs.trans hgrows) (r :: done) mid
    refine ⟨r :: rs, out', u, ?_, .cons (hcall.mono (Task.extends_of_run hmore)) hcalls⟩
    rw [List.reverse_cons, List.append_assoc, List.singleton_append] at hmore
    exact (SessionM.run_bind hrun).trans hmore

/-- Calls into one output, each of which finds what the ones before it have left. -/
theorem appendAll_exact (ctx : Context) (stmts : List Syntax.Instantiation) (s : Session)
    (out : List Design.Instance)
    (hserved : ∀ stmt ∈ stmts, ∀ v ∈ stmt.visits, Served ctx s.names v) :
    ∃ rs out' t, ((appendAll ctx stmts).run out).run.run s = (.ok (rs, out'), t) ∧
      AppendsAll ctx s.names t.names stmts rs out out' :=
  appendAll_calls hserved (Names.Extends.refl s.names) [] out

section Sample

/-- The text that the dimension and the statements below were read from: `4`. -/
def digitContext : Context := { sources := .ofList [("a.sv", "4")] }

/-- `\m #(.W()) u [4] (.*), u ();`, then a statement whose second instance is broken, then one
without instances. -/
def brokenStatements : List Syntax.Instantiation :=
  let digit : Span := ⟨0, 0, 1⟩
  let instance' (dimensions : List Syntax.Dimension) (ports : Syntax.PortList) : Syntax.Instance :=
    ⟨⟨⟨2, digit⟩, dimensions, digit⟩, ports, digit⟩
  let params : Syntax.ParamClause := ⟨some (.named [⟨⟨1, digit⟩, none, digit⟩]), digit⟩
  [⟨⟨0, digit⟩, some params, [instance' [.size (.literal digit) digit]
      (.named [⟨[], .wildcard, digit⟩]), instance' [] (.ordered [])], digit⟩,
    ⟨⟨0, digit⟩, none, [instance' [] (.ordered []),
      instance' [] (.ordered [⟨[], some (.error digit), digit⟩])], digit⟩,
    ⟨⟨0, digit⟩, none, [], digit⟩]

theorem appendAll_exact_broken :
    let s : Session := { names := .ofList ["\\m", "W", "u"] }
    (∀ stmt ∈ brokenStatements, ∀ v ∈ stmt.visits, Served digitContext s.names v) ∧
      ∃ rs out' t, ((appendAll digitContext brokenStatements).run []).run.run s =
          (.ok (rs, out'), t) ∧
        AppendsAll digitContext s.names t.names brokenStatements rs [] out' := by
  intro s
  have hserved : ∀ stmt ∈ brokenStatements, ∀ v ∈ stmt.visits, Served digitContext s.names v := by
    have hdigit : digitContext.sources.snippet ⟨0, 0, 1⟩ = .ok "4" := by decide +kernel
    have hm : s.names.resolve? 0 = some "\\m" := by decide +kernel
    have hW : s.names.resolve? 1 = some "W" := by decide +kernel
    have hu : s.names.resolve? 2 = some "u" := by decide +kernel
    simp [brokenStatements, Syntax.Instantiation.visits, Syntax.ParamClause.visits,
      Syntax.ParamList.visits, Syntax.NamedParam.visits, Syntax.Identifier.visits,
      Syntax.Instance.visits, Syntax.PortList.visits, Syntax.NamedPort.visits,
      Syntax.OrderedPort.visits, Syntax.PortTarget.visits, Syntax.Dimension.visits,
      Syntax.Expr.visits, Served, hdigit, hm, hW, hu]
  exact ⟨hserved, appendAll_exact digitContext brokenStatements s [] hserved⟩

end Sample

end Calls

end Lowering

end Netlist
