import Netlist.Proofs.Lowering.Flaws
import Netlist.Proofs.Lowering.Output
import Mathlib.Data.List.TakeWhile

/-!
What lowering a unit records. An item that is passed over has one notice and one that is an error
one report. A statement has a notice for the signing of each data type among its parameter values,
once for all of its instances, then one for each attribute of a connection, up to its first fault;
the fault is reported. So what is not among the instances of the unit is on record, in the order of
the items and once.
-/
namespace Netlist

open List (Forall₂)

namespace Syntax

def ParamValue.signing : ParamValue → List Span
  | .expr _ => []
  | .dataType type => type.signing.toList.map (·.2)

/-- Where the data types of a parameter list have a signing. -/
def ParamList.signings : ParamList → List Span
  | .ordered values => values.flatMap ParamValue.signing
  | .named items => items.flatMap fun p => p.value.toList.flatMap ParamValue.signing

/-- The attributes in a port list, with the form of the list. -/
def PortList.attributes : PortList → List (String × Attribute)
  | .ordered ports => ports.flatMap fun p => p.attributes.map ("ordered", ·)
  | .named ports => ports.flatMap fun p => p.attributes.map ("named", ·)

/-- What is left out of a statement, as it is called in notices: its signings, then the attributes
of each instance. -/
def Instantiation.omissions (stmt : Instantiation) : List (String × Span) :=
  (stmt.params.toList.flatMap fun p => p.list.toList.flatMap ParamList.signings).map
      ("signing of a data type parameter value", ·) ++
    (stmt.instances.flatMap fun i => i.connections.attributes).map fun (form, a) =>
      ("attribute instance on " ++ form ++ " port connection", a.span)

/-- What is left out on the way, in order. -/
def Visit.omissions (vs : List Visit) : List (String × Span) :=
  vs.filterMap fun
    | .omission label span => some (label, span)
    | _ => none

/-- What lowering comes across at an item itself. -/
def Item.visits : Item → List Visit
  | .instantiation stmt => stmt.visits
  | .skipped leading _ => [.text leading]
  | .error _ => []

def DesignUnit.visits (u : DesignUnit) : List Visit := u.items.flatMap Item.visits ++ u.name.visits

section Omissions

@[simp] theorem Visit.omissions_append (vs ws : List Visit) :
    Visit.omissions (vs ++ ws) = Visit.omissions vs ++ Visit.omissions ws := List.filterMap_append

theorem Visit.omissions_flatMap {α : Type} (visits : α → List Visit) (as : List α) :
    Visit.omissions (as.flatMap visits) = as.flatMap fun a => Visit.omissions (visits a) :=
  List.filterMap_flatMap

theorem Visit.omissions_flatMap_nil {α : Type} {visits : α → List Visit} {as : List α}
    (h : ∀ a, Visit.omissions (visits a) = []) : Visit.omissions (as.flatMap visits) = [] := by
  rw [Visit.omissions_flatMap]
  exact List.flatMap_eq_nil_iff.mpr fun a _ => h a

@[simp] theorem Identifier.omissions_visits (i : Identifier) : Visit.omissions i.visits = [] := rfl

theorem Expr.omissions_own (e : Expr) : Visit.omissions e.own = [] := by
  cases e with
  | hierarchical parts span =>
    cases parts with
    | nil => rfl
    | cons first parts => exact Visit.omissions_flatMap_nil Identifier.omissions_visits
  | _ => rfl

/-- Nothing is left out of an expression. -/
@[simp] theorem Expr.omissions_visits (e : Expr) : Visit.omissions e.visits = [] := by
  rw [e.visits_eq]
  exact Visit.omissions_flatMap_nil omissions_own

@[simp] theorem Range.omissions_visits (r : Range) : Visit.omissions r.visits = [] := by
  simp [visits]

theorem Dimension.omissions_visits (d : Dimension) : Visit.omissions d.visits = [] := by
  cases d with
  | range bounds => exact bounds.omissions_visits
  | size count span => exact count.omissions_visits

theorem ParamValue.omissions_visits (p : ParamValue) :
    Visit.omissions p.visits =
      p.signing.map ("signing of a data type parameter value", ·) := by
  cases p with
  | expr value => exact value.omissions_visits
  | dataType type =>
    rw [visits, DataType.visits, Visit.omissions_append,
      Visit.omissions_flatMap_nil Range.omissions_visits, List.append_nil, signing]
    cases type.signing <;> rfl

theorem ParamList.omissions_visits (l : ParamList) :
    Visit.omissions l.visits =
      l.signings.map ("signing of a data type parameter value", ·) := by
  cases l with
  | ordered values =>
    simp [visits, signings, Visit.omissions_flatMap, List.map_flatMap, ParamValue.omissions_visits]
  | named items =>
    simp [visits, signings, NamedParam.visits, Visit.omissions_flatMap, List.map_flatMap,
      ParamValue.omissions_visits]

theorem Attribute.omissions_visits (form : String) (as : List Attribute) :
    Visit.omissions (as.flatMap (visits form)) =
      as.map fun a => ("attribute instance on " ++ form ++ " port connection", a.span) := by
  induction as with
  | nil => rfl
  | cons a as ih => exact congrArg _ ih

theorem PortList.omissions_visits (l : PortList) :
    Visit.omissions l.visits = l.attributes.map fun (form, a) =>
      ("attribute instance on " ++ form ++ " port connection", a.span) := by
  have hactual (e? : Option Expr) : Visit.omissions (e?.toList.flatMap Expr.visits) = [] :=
    Visit.omissions_flatMap_nil Expr.omissions_visits
  have htarget (target : PortTarget) : Visit.omissions target.visits = [] := by
    cases target with
    | wildcard => rfl
    | port name actual => exact hactual actual
  cases l with
  | ordered ports =>
    rw [visits, attributes, Visit.omissions_flatMap, List.map_flatMap]
    congr 1
    funext p
    rw [OrderedPort.visits, Visit.omissions_append, hactual, Attribute.omissions_visits,
      List.append_nil, List.map_map]
    rfl
  | named ports =>
    rw [visits, attributes, Visit.omissions_flatMap, List.map_flatMap]
    congr 1
    funext p
    rw [NamedPort.visits, Visit.omissions_append, htarget, Attribute.omissions_visits,
      List.append_nil, List.map_map]
    rfl

/-- The attributes of an instance are the last of what is left out of it. -/
theorem Instance.omissions_visits (module : Identifier) (i : Instance) :
    Visit.omissions (i.visits module) = Visit.omissions i.connections.visits := by
  simp [visits, Visit.omissions_flatMap_nil Dimension.omissions_visits]

theorem Instantiation.omissions_visits {stmt : Instantiation} (h : stmt.instances ≠ []) :
    Visit.omissions stmt.visits = stmt.omissions := by
  have hinstances : ¬ stmt.instances.isEmpty = true := by simpa using h
  rw [visits, if_neg hinstances, Visit.omissions_append, omissions]
  congr 1
  · simp [ParamClause.visits, Visit.omissions_flatMap, List.map_flatMap,
      ParamList.omissions_visits]
  · simp [Visit.omissions_flatMap, List.map_flatMap, Instance.omissions_visits,
      PortList.omissions_visits]

end Omissions

end Syntax

namespace Lowering

open Syntax (Visit Item DesignUnit)

variable {ctx : Context} {names later : Names} {s t : Session} {vs : List Visit}

def notices (ctx : Context) (omissions : List (String × Span)) : List Diagnostic :=
  omissions.map fun (label, span) => noticeOf ctx.level label span

theorem noticesOf_quiet (h : firstFault? ctx vs = none) :
    noticesOf ctx vs = notices ctx (Visit.omissions vs) := by
  have hall : vs.takeWhile (fun v => (faultAt? ctx v).isNone) = vs := by
    refine List.takeWhile_eq_self_iff.mpr fun v hv => ?_
    rw [List.findSome?_eq_none_iff.mp h v hv]
    rfl
  rw [noticesOf, hall, notices, Visit.omissions, List.map_filterMap]
  congr 1
  funext v
  cases v <;> rfl

/-- The first fault cuts the way in two, and the notices are those of the first part. -/
theorem exists_cut {fault : Fault} (h : firstFault? ctx vs = some fault) :
    ∃ before v after, vs = before ++ v :: after ∧ firstFault? ctx before = none ∧
      faultAt? ctx v = some fault ∧ noticesOf ctx vs = notices ctx (Visit.omissions before) := by
  obtain ⟨before, v, after, rfl, hv, hbefore⟩ := List.findSome?_eq_some_iff.mp h
  have hquiet : firstFault? ctx before = none := List.findSome?_eq_none_iff.mpr hbefore
  refine ⟨before, v, after, rfl, hquiet, hv, ?_⟩
  have hnone : noticesOf ctx (v :: after) = [] := by
    rw [noticesOf, List.takeWhile_cons_of_neg (by simp [hv])]
    rfl
  rw [noticesOf_append, hquiet, Option.isNone_none, if_pos rfl, hnone, List.append_nil,
    noticesOf_quiet hquiet]

/-- What is left out on the first part of the way is the first of what a statement leaves out. -/
theorem exists_omissions_append {stmt : Syntax.Instantiation} {before after : List Visit}
    {v : Visit}
    (h : stmt.visits = before ++ v :: after) :
    ∃ late, stmt.omissions = Visit.omissions before ++ late := by
  by_cases hne : stmt.instances = []
  · -- The fault of a statement without instances comes before anything else.
    have honly : before ++ v :: after = [.flaw (.noInstances stmt.span)] := by
      rw [← h, Syntax.Instantiation.visits, hne, List.isEmpty_nil, if_pos rfl]
    obtain ⟨rfl, -⟩ : before = [] ∧ _ := by simpa [List.append_eq_singleton_iff] using honly
    exact ⟨stmt.omissions, rfl⟩
  · refine ⟨Visit.omissions (v :: after), ?_⟩
    rw [← Syntax.Instantiation.omissions_visits hne, h, Visit.omissions_append]

/-- The fault that an item is reported for. -/
def faultIn? (ctx : Context) : Item → Option Fault
  | .instantiation stmt => firstFault? ctx stmt.visits
  | .skipped _ _ => none
  | .error span => some (.malformed .moduleItem span)

theorem faultIn?_of_cut {stmt : Syntax.Instantiation} {before after : List Visit} {v : Visit}
    {fault : Fault} (hvisits : stmt.visits = before ++ v :: after)
    (hbefore : firstFault? ctx before = none) (hv : faultAt? ctx v = some fault) :
    faultIn? ctx (.instantiation stmt) = some fault := by
  rw [faultIn?, hvisits, firstFault?_append, hbefore, Option.none_or, firstFault?,
    List.findSome?_cons, hv]

/-- What is recorded of an item, and the instances it gives; `later` has their names. -/
inductive Becomes (ctx : Context) (later : Names) :
    Item → List Diagnostic → List Design.Instance → Prop
  | translated {stmt : Syntax.Instantiation} {shared : List Design.Expr}
      {is : List Design.Instance} : faultIn? ctx (.instantiation stmt) = none →
      SharedBy ctx later stmt.params shared →
      Forall₂ (Describes ctx later stmt.module shared) stmt.instances is →
      Becomes ctx later (.instantiation stmt) (notices ctx stmt.omissions) is
  /-- `early` is what is left out before the first fault. -/
  | faulty {stmt : Syntax.Instantiation} {fault : Fault} {before after : List Visit} {v : Visit}
      {early late : List (String × Span)} : stmt.visits = before ++ v :: after →
      firstFault? ctx before = none → faultAt? ctx v = some fault →
      Visit.omissions before = early → stmt.omissions = early ++ late →
      Becomes ctx later (.instantiation stmt) (notices ctx early ++ [fault.diagnostic]) []
  | skipped {leading span : Span} {text : String} : ctx.sources.snippet leading = .ok text →
      Becomes ctx later (.skipped leading span)
        (notices ctx [("module item `" ++ text ++ "`", span)]) []
  | error {span : Span} :
      Becomes ctx later (.error span) [(Fault.malformed .moduleItem span).diagnostic] []

theorem Becomes.mono {i : Item} {ds : List Diagnostic} {is : List Design.Instance}
    (h : Becomes ctx names i ds is) (hlater : names.Extends later) : Becomes ctx later i ds is := by
  cases h with
  | translated hquiet hshared his =>
    exact .translated hquiet (hshared.mono hlater) (his.imp fun _ _ hd => hd.mono hlater)
  | faulty hvisits hbefore hv hearly homissions =>
    exact .faulty hvisits hbefore hv hearly homissions
  | skipped htext => exact .skipped htext
  | error => exact .error

theorem severity_notices {d : Diagnostic} {omissions : List (String × Span)}
    (h : d ∈ notices ctx omissions) : d.code = ⟨.warning, 300⟩ ∧ d.severity ≠ .error := by
  obtain ⟨omission, -, rfl⟩ := List.mem_map.mp h
  refine ⟨rfl, ?_⟩
  show ctx.level.severity ≠ .error
  cases ctx.level <;> nofun

/-- A notice is no error and a report is one. -/
theorem Becomes.severity {i : Item} {ds : List Diagnostic} {is : List Design.Instance}
    (h : Becomes ctx later i ds is) {d : Diagnostic} (hd : d ∈ ds) :
    d.code = ⟨.warning, 300⟩ ∧ d.severity ≠ .error ∨
      (d.code = ⟨.error, 300⟩ ∨ d.code = ⟨.error, 301⟩) ∧ d.severity = .error := by
  cases h with
  | translated hquiet hshared his => exact .inl (severity_notices hd)
  | @faulty stmt fault before after v early late hvisits hbefore hv hearly homissions =>
    rcases List.mem_append.mp hd with hd | hd
    · exact .inl (severity_notices hd)
    · obtain rfl := List.mem_singleton.mp hd
      refine .inr ⟨?_, ?_⟩
      · cases fault with
        | malformed part span => exact .inl rfl
        | noInstances span => exact .inr rfl
      · cases fault <;> rfl
  | skipped htext => exact .inl (severity_notices hd)
  | error =>
    obtain rfl := List.mem_singleton.mp hd
    exact .inr ⟨.inl rfl, rfl⟩

theorem countP_notices (omissions : List (String × Span)) :
    (notices ctx omissions).countP (fun d => d.severity = .error) = 0 :=
  List.countP_eq_zero.mpr fun _ hd => by simpa using (severity_notices hd).2

/-- An item has an error exactly if it has a fault. -/
theorem Becomes.errors {i : Item} {ds : List Diagnostic} {is : List Design.Instance}
    (h : Becomes ctx later i ds is) :
    ds.countP (fun d => d.severity = .error) = if (faultIn? ctx i).isSome then 1 else 0 := by
  cases h with
  | translated hquiet hshared his => rw [hquiet, countP_notices]; rfl
  | @faulty stmt fault before after v early late hvisits hbefore hv hearly homissions =>
    have hreport : fault.diagnostic.severity = .error := by cases fault <;> rfl
    rw [faultIn?_of_cut hvisits hbefore hv, List.countP_append, countP_notices,
      List.countP_singleton, hreport]
    rfl
  | skipped htext => exact countP_notices _
  | error => rfl

section Runs

variable {lower : LowerM (List Design.Instance)} {is : List Design.Instance} {fault : Fault}

theorem reportingFaults_ok (h : lower.run.run.run s = (.ok (.ok is), t)) :
    (reportingFaults lower).run.run s = (.ok is, t) ∧
      (reportingFaults lower).run.emitted s = lower.run.run.emitted s :=
  ⟨SessionM.run_bind (x := lower.run) h,
    (SessionM.emitted_bind (x := lower.run) h).trans (List.append_nil _)⟩

theorem reportingFaults_error (h : lower.run.run.run s = (.ok (.error fault), t)) :
    (reportingFaults lower).run.run s = (.ok [], t.emit fault.diagnostic) ∧
      (reportingFaults lower).run.emitted s =
        lower.run.run.emitted s ++ [fault.diagnostic] :=
  ⟨SessionM.run_bind (x := lower.run) h, SessionM.emitted_bind (x := lower.run) h⟩

/-- One item, from any session with the names it needs. -/
theorem item_becomes {i : Item} (h : ∀ v ∈ i.visits, Served ctx names v)
    (hs : names.Extends s.names) :
    ∃ is t, (reportingFaults (item ctx i)).run.run s = (.ok is, t) ∧
      Becomes ctx t.names i ((reportingFaults (item ctx i)).run.emitted s) is := by
  cases i with
  | instantiation stmt =>
    obtain ⟨r, t, hrun, -, hfault, hemits⟩ := follows_instantiation h s hs
    cases r with
    | ok is =>
      obtain ⟨hdone, hemitted⟩ := reportingFaults_ok hrun
      obtain ⟨shared, hshared, his⟩ := described_of_returns h hs hrun
      have hquiet : firstFault? ctx stmt.visits = none := hfault.symm
      have hne := (Returns.of_instantiation hrun).1
      refine ⟨is, t, hdone, ?_⟩
      rw [item, hemitted, hemits, noticesOf_quiet hquiet,
        Syntax.Instantiation.omissions_visits hne]
      exact .translated hquiet hshared his
    | error fault =>
      obtain ⟨hdone, hemitted⟩ := reportingFaults_error hrun
      obtain ⟨before, v, after, hvisits, hbefore, hv, hnotices⟩ := exists_cut hfault.symm
      refine ⟨[], _, hdone, ?_⟩
      obtain ⟨late, hlate⟩ := exists_omissions_append hvisits
      rw [item, hemitted, hemits, hnotices]
      exact .faulty hvisits hbefore hv rfl hlate
  | skipped leading span =>
    obtain ⟨text, htext⟩ := h _ (List.mem_singleton_self _)
    refine ⟨[], s.emit (noticeOf ctx.level ("module item `" ++ text ++ "`") span), ?_, ?_⟩
    · rw [item, snippet_eq_pure htext]
      rfl
    · rw [item, snippet_eq_pure htext]
      exact .skipped htext
  | error span => exact ⟨[], _, rfl, .error⟩

/-- A step that makes of an item what it becomes. -/
structure Advances (ctx : Context) (i : Item) (s : Session) (is : List Design.Instance)
    (t : Session) : Prop where
  names : s.names.Extends t.names
  becomes : ∃ ds, Becomes ctx t.names i ds is ∧ t.log.held.toList = s.log.held.toList ++ ds

theorem Advances.of_run {i : Item} (h : (reportingFaults (item ctx i)).run.run s = (.ok is, t))
    (hbecomes : Becomes ctx t.names i ((reportingFaults (item ctx i)).run.emitted s) is) :
    Advances ctx i s is t := by
  refine ⟨Task.extends_of_run h, _, hbecomes, ?_⟩
  have hheld := Task.held_run (reportingFaults (item ctx i)).run s
  rwa [h] at hheld

theorem items_become {items : List Item} {groups : List (List Design.Instance)}
    (h : Steps (Advances ctx) items s groups t) :
    ∃ rs : List (List Diagnostic × List Design.Instance),
      Forall₂ (fun i r => Becomes ctx t.names i r.1 r.2) items rs ∧
      t.log.held.toList = s.log.held.toList ++ rs.flatMap Prod.fst ∧
      groups.flatten = rs.flatMap Prod.snd := by
  induction h with
  | nil s => exact ⟨[], .nil, (List.append_nil _).symm, rfl⟩
  | @cons i items is groups s t u hfirst hrest ih =>
    obtain ⟨-, ds, hbecomes, hheld⟩ := hfirst
    obtain ⟨rs, hall, hheld', hgroups⟩ := ih
    have hlater : t.names.Extends u.names := hrest.names_extends fun _ _ _ _ h => h.names
    refine ⟨(ds, is) :: rs, .cons (hbecomes.mono hlater) hall, ?_, ?_⟩
    · rw [hheld', hheld, List.append_assoc, List.flatMap_cons]
    · rw [List.flatten_cons, hgroups, List.flatMap_cons]

theorem errors_become {items : List Item} {rs : List (List Diagnostic × List Design.Instance)}
    (h : Forall₂ (fun i r => Becomes ctx later i r.1 r.2) items rs) :
    (rs.flatMap Prod.fst).countP (fun d => d.severity = .error) =
      items.countP fun i => (faultIn? ctx i).isSome := by
  induction h with
  | nil => rfl
  | cons hfirst _ ih =>
    rw [List.flatMap_cons, List.countP_append, ih, hfirst.errors, List.countP_cons, Nat.add_comm]

theorem severity_become {items : List Item} {rs : List (List Diagnostic × List Design.Instance)}
    (h : Forall₂ (fun i r => Becomes ctx later i r.1 r.2) items rs) :
    ∀ d ∈ rs.flatMap Prod.fst, d.code = ⟨.warning, 300⟩ ∧ d.severity ≠ .error ∨
      (d.code = ⟨.error, 300⟩ ∨ d.code = ⟨.error, 301⟩) ∧ d.severity = .error := by
  induction h with
  | nil => exact List.forall_mem_nil _
  | cons hfirst _ ih =>
    rw [List.flatMap_cons]
    exact List.forall_mem_append.mpr ⟨fun d hd => hfirst.severity hd, ih⟩

/-- The items of a unit become one after the other what they become. -/
theorem unit_becomes {u : DesignUnit} (hserved : ∀ v ∈ u.visits, Served ctx names v)
    (hs : names.Extends s.names) :
    ∃ m t, ∃ rs : List (List Diagnostic × List Design.Instance),
      (designUnit ctx u).run.run s = (.ok m, t) ∧
      Forall₂ (fun i r => Becomes ctx t.names i r.1 r.2) u.items rs ∧
      t.log.held.toList = s.log.held.toList ++ rs.flatMap Prod.fst ∧
      m.instances = rs.flatMap Prod.snd ∧ m.span = u.span ∧
      ∃ bare, t.names.Bare u.name.name bare ∧ m.name = .id bare := by
  obtain ⟨hitems, hname⟩ := List.forall_mem_append.mp hserved
  have hstep : ∀ i ∈ u.items, ∀ v, names.Extends v.names → ∃ is w,
      (reportingFaults (item ctx i)).run.run v = (.ok is, w) ∧ names.Extends w.names ∧
        Advances ctx i v is w := by
    intro i hi v hv
    have hserved : ∀ v ∈ i.visits, Served ctx names v := fun v hv =>
      hitems v (List.mem_flatMap.mpr ⟨i, hi, hv⟩)
    obtain ⟨is, w, hrun, hbecomes⟩ := item_becomes hserved hv
    exact ⟨is, w, hrun, hv.trans (Task.extends_of_run hrun), .of_run hrun hbecomes⟩
  obtain ⟨groups, v, hrun, hv, hsteps⟩ := SessionM.mapM_run hstep hs
  obtain ⟨name, t, hnameRun, -, hquiet⟩ := emits_identifier hname v hv
  obtain ⟨bare, rfl, hbare⟩ := identifier_bare hnameRun
  obtain ⟨rs, hall, hheld, hgroups⟩ := items_become hsteps
  -- The name of the unit adds nothing to the log.
  have hlog : t.log = v.log := by
    have hsame := Task.log_eq hquiet
    rwa [hnameRun] at hsame
  refine ⟨⟨.id bare, groups.flatten, u.span⟩, t, rs,
    (SessionM.run_bind hrun).trans (SessionM.run_bind hnameRun),
    hall.imp fun _ _ h => h.mono (Task.extends_of_run hnameRun), ?_, hgroups, rfl, bare, hbare, rfl⟩
  rw [hlog, hheld]

end Runs

/-- A unit is lowered item by item. All that is not lowered is recorded, in order and once, and its
instances are those of the statements without faults; only faults count as errors. -/
theorem unit_recorded (ctx : Context) (u : DesignUnit) (s : Session)
    (hserved : ∀ v ∈ u.visits, Served ctx s.names v) :
    ∃ m t, ∃ rs : List (List Diagnostic × List Design.Instance),
      (designUnit ctx u).run.run s = (.ok m, t) ∧
      Forall₂ (fun i r => Becomes ctx t.names i r.1 r.2) u.items rs ∧
      (designUnit ctx u).run.emitted s = rs.flatMap Prod.fst ∧
      t.log.held.toList = s.log.held.toList ++ rs.flatMap Prod.fst ∧
      m.instances = rs.flatMap Prod.snd ∧
      m.span = u.span ∧ (∃ bare, t.names.Bare u.name.name bare ∧ m.name = .id bare) ∧
      (∀ d ∈ rs.flatMap Prod.fst,
        (d.code = ⟨.warning, 300⟩ ∧ ∀ log : Log, (log.emit d).errors = log.errors) ∨
        ((d.code = ⟨.error, 300⟩ ∨ d.code = ⟨.error, 301⟩) ∧
          ∀ log : Log, (log.emit d).errors = log.errors + 1)) ∧
      t.log.errors = s.log.errors + u.items.countP fun i => (faultIn? ctx i).isSome := by
  obtain ⟨m, t, rs, hunit, hall, hheld, hinstances, hspan, hname⟩ :=
    unit_becomes hserved (Names.Extends.refl s.names)
  have hemitted : (designUnit ctx u).run.emitted s = rs.flatMap Prod.fst := by
    have hwhole := Task.held_run (designUnit ctx u).run s
    rw [hunit, hheld] at hwhole
    exact (List.append_cancel_left hwhole).symm
  have herrors := Task.errors_run (designUnit ctx u).run s
  rw [hunit, hemitted, errors_become hall] at herrors
  refine ⟨m, t, rs, hunit, hall, hemitted, hheld, hinstances, hspan, hname, fun d hd => ?_, herrors⟩
  rcases severity_become hall d hd with ⟨hcode, hnotice⟩ | ⟨hcode, hreport⟩
  · exact .inl ⟨hcode, fun log => if_neg hnotice⟩
  · exact .inr ⟨hcode, fun log => if_pos hreport⟩

section Sample

/-- The text that the unit below was read from: an item of another kind, a size, a bare base. -/
def remnantContext : Context := { sources := .ofList [("a.sv", "always 4 8'h")] }

/-- A unit with an item that is passed over, an error, a statement with a fault between two
attributes, and one whose two instances share a signed type. -/
def remnantUnit : DesignUnit :=
  let size : Span := ⟨0, 7, 8⟩
  let base : Span := ⟨0, 9, 12⟩
  let params : Syntax.ParamClause :=
    ⟨some (.ordered [.dataType ⟨.logic, some (.signed, size), [], size⟩]), size⟩
  let port (place value : Span) : Syntax.OrderedPort :=
    ⟨[⟨[], place⟩], some (.literal value), value⟩
  let instance' (ports : List Syntax.OrderedPort) : Syntax.Instance :=
    ⟨⟨⟨1, size⟩, [], size⟩, .ordered ports, size⟩
  { kind := .module
    name := ⟨0, size⟩
    items := [.skipped ⟨0, 0, 6⟩ ⟨0, 0, 8⟩, .error base,
      .instantiation ⟨⟨0, size⟩, some params, [instance' [port size size, port base base],
        instance' [port size base]], size⟩,
      .instantiation ⟨⟨0, size⟩, some params, [instance' [port size size], instance' []], base⟩]
    endLabel := none
    span := size }

theorem unit_recorded_remnants :
    let s : Session := { names := .ofList ["\\m", "u"] }
    (∀ v ∈ remnantUnit.visits, Served remnantContext s.names v) ∧
      ∃ m t, ∃ rs : List (List Diagnostic × List Design.Instance),
        (designUnit remnantContext remnantUnit).run.run s = (.ok m, t) ∧
        Forall₂ (fun i r => Becomes remnantContext t.names i r.1 r.2) remnantUnit.items rs ∧
        (rs.flatMap Prod.fst).map (fun d => (d.code.category, d.span)) =
          [(.warning, ⟨0, 0, 8⟩), (.error, ⟨0, 9, 12⟩), (.warning, ⟨0, 7, 8⟩),
            (.warning, ⟨0, 7, 8⟩), (.warning, ⟨0, 9, 12⟩), (.error, ⟨0, 9, 12⟩),
            (.warning, ⟨0, 7, 8⟩), (.warning, ⟨0, 7, 8⟩)] ∧
        m.instances = rs.flatMap Prod.snd ∧ m.instances.length = 2 ∧ t.log.errors = 2 := by
  intro s
  have hserved : ∀ v ∈ remnantUnit.visits, Served remnantContext s.names v := by
    have halways : remnantContext.sources.snippet ⟨0, 0, 6⟩ = .ok "always" := by decide +kernel
    have hsize : remnantContext.sources.snippet ⟨0, 7, 8⟩ = .ok "4" := by decide +kernel
    have hbase : remnantContext.sources.snippet ⟨0, 9, 12⟩ = .ok "8'h" := by decide +kernel
    have hm : s.names.resolve? 0 = some "\\m" := by decide +kernel
    have hu : s.names.resolve? 1 = some "u" := by decide +kernel
    simp [remnantUnit, DesignUnit.visits, Item.visits, Syntax.Instantiation.visits,
      Syntax.ParamClause.visits, Syntax.ParamList.visits, Syntax.ParamValue.visits,
      Syntax.DataType.visits, Syntax.Identifier.visits, Syntax.Instance.visits,
      Syntax.PortList.visits, Syntax.OrderedPort.visits, Syntax.Attribute.visits,
      Syntax.Expr.visits, Served, halways, hsize, hbase, hm, hu]
  obtain ⟨m, t, rs, hrun, hall, hemitted, -, hinstances, -, -, -, herrors⟩ :=
    unit_recorded remnantContext remnantUnit s hserved
  refine ⟨hserved, m, t, rs, hrun, hall, ?_, hinstances, ?_, ?_⟩
  · rw [← hemitted]
    decide +kernel
  · have hlength : ((designUnit remnantContext remnantUnit).run.run s).1.toOption.map
        (·.instances.length) = some 2 := by decide +kernel
    rw [hrun] at hlength
    exact Option.some.inj hlength
  · rw [herrors]
    decide +kernel

end Sample

end Lowering

end Netlist
