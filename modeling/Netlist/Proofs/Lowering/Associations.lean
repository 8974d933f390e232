import Netlist.Proofs.Lowering.Returns

/-!
Generic and port maps. What an expression is lowered to is never an association, the key for every
port or the open value, whatever the tree. So the entries of a map tell which list they come from:
an ordered list gives values bound by position, a named one associations, and an entry is open only
where nothing was written.
-/
namespace Netlist

open List (Forall₂)

namespace Design

/-- An expression that can be bound: no association, and none of the two marks of maps. -/
def Expr.IsValue : Expr → Prop
  | .all => False
  | .null => False
  | .binary .association _ _ => False
  | _ => True

namespace Expr.IsValue

variable {e : Expr}

theorem isAssociation (h : e.IsValue) : e.isAssociation = false := by
  unfold Expr.isAssociation Expr.association?
  split
  next => cases h
  next => rfl

theorem ne_null (h : e.IsValue) : e ≠ .null := by
  rintro rfl
  exact h

end Expr.IsValue

/-- A map of the given size, bound by name or by position throughout. -/
structure Homogeneous (size : Nat) (named : Bool) (map : List Expr) : Prop where
  length : map.length = size
  empty : Style.of map = .empty ↔ size = 0
  positional : Style.of map = .positional ↔ size ≠ 0 ∧ named = false
  named : Style.of map = .named ↔ size ≠ 0 ∧ named = true
  pure : Style.of map ≠ .mixed

theorem homogeneous {map : List Expr} {named : Bool}
    (h : ∀ e ∈ map, e.isAssociation = named) : Homogeneous map.length named map := by
  cases map with
  | nil => constructor <;> simp [Style.of]
  | cons e es =>
    have hstyle : Style.of (e :: es) = if named then .named else .positional := by
      cases named <;> simp_all [Style.of]
    cases named <;> constructor <;> simp [hstyle]

end Design

namespace Syntax

def ParamList.length : ParamList → Nat
  | .ordered values => values.length
  | .named items => items.length

def ParamList.isNamed : ParamList → Bool
  | .ordered _ => false
  | .named _ => true

def PortList.length : PortList → Nat
  | .ordered ports => ports.length
  | .named ports => ports.length

def PortList.isNamed : PortList → Bool
  | .ordered _ => false
  | .named _ => true

end Syntax

namespace Lowering

open Design (Expr Style Homogeneous)

/-- A key with its value, which is open where none was given. -/
def BindsName (names : Names) (key : Syntax.Identifier) {α : Type} (given : Option α) (e : Expr) :
    Prop :=
  ∃ bare value, e = .association (.id bare) value ∧ names.Bare key.name bare ∧
    value.isAssociation = false ∧ (value = .null ↔ given = none)

/-- The entries of a generic map, one for each of the list. -/
inductive BindsParams (names : Names) : Syntax.ParamList → List Expr → Prop
  | ordered {values : List Syntax.ParamValue} {es : List Expr} :
      Forall₂ (fun _ e => e.IsValue) values es → BindsParams names (.ordered values) es
  | named {items : List Syntax.NamedParam} {es : List Expr} :
      Forall₂ (fun p e => BindsName names p.name p.value e) items es →
      BindsParams names (.named items) es

inductive BindsPort (names : Names) : Syntax.PortTarget → Expr → Prop
  | wildcard : BindsPort names .wildcard (.association .all .null)
  | port {name : Syntax.Identifier} {actual : Option Syntax.Expr} {e : Expr} :
      BindsName names name actual e → BindsPort names (.port name actual) e

/-- The entries of a port map, one for each of the list. -/
inductive BindsPorts (names : Names) : Syntax.PortList → List Expr → Prop
  | ordered {ports : List Syntax.OrderedPort} {es : List Expr} :
      Forall₂ (fun p e => e.isAssociation = false ∧ (e = .null ↔ p.expr = none)) ports es →
      BindsPorts names (.ordered ports) es
  | named {ports : List Syntax.NamedPort} {es : List Expr} :
      Forall₂ (fun p e => BindsPort names p.target e) ports es →
      BindsPorts names (.named ports) es

/-- Whatever value the lowering gives has the property, in any session. -/
def GivesOnly {α : Type} (P : α → Prop) (x : LowerM α) : Prop := ∀ s a t, Returns x s a t → P a

namespace GivesOnly

variable {α β : Type} {P : α → Prop}

theorem pure {a : α} (h : P a) : GivesOnly P (Pure.pure a) := by
  intro s b t hrun
  obtain ⟨rfl, -⟩ := Returns.of_pure hrun
  exact h

theorem fail {f : Fault} : GivesOnly P (Lowering.fail f) := fun _ _ _ hrun => nomatch hrun

theorem lift {x : SessionM α} (h : ∀ s a t, x.run.run s = (.ok a, t) → P a) :
    GivesOnly P (ExceptT.lift x) := fun s a t hrun => h s a t (Returns.of_lift hrun)

theorem bind {x : LowerM β} {f : β → LowerM α} (h : ∀ b, GivesOnly P (f b)) :
    GivesOnly P (x >>= f) := by
  intro s a u hrun
  obtain ⟨b, t, -, hrest⟩ := Returns.of_bind hrun
  exact h b t a u hrest

end GivesOnly

section Values

variable {ctx : Context}

theorem identifier_isValue {i : Syntax.Identifier} {e : Expr} {s t : Session}
    (h : (identifier i).run.run s = (.ok e, t)) : e.IsValue := by
  obtain ⟨bare, rfl, -⟩ := identifier_bare h
  trivial

theorem members_isValue {parts : List Syntax.Identifier} {base e : Expr} {s t : Session}
    (hbase : base.IsValue) (h : (members base parts).run.run s = (.ok e, t)) : e.IsValue := by
  induction parts generalizing base s with
  | nil =>
    cases h
    exact hbase
  | cons part parts ih =>
    obtain ⟨name, u, -, hrest⟩ := SessionM.exists_of_bind h
    have hmember : Expr.IsValue (.binary .dot base name) := trivial
    exact ih hmember hrest

/-- Parentheses hand on what is inside them; every other form makes a node of its own. -/
theorem expression_isValue : (tree : Syntax.Expr) → GivesOnly Expr.IsValue (expression ctx tree)
  | .identifier _ => by
    unfold expression
    exact .lift fun _ _ _ => identifier_isValue
  | .hierarchical [] _ => by
    unfold expression
    exact .fail
  | .hierarchical (first :: parts) _ => by
    unfold expression
    intro s e u hrun
    obtain ⟨base, t, hbase, hrest⟩ := Returns.of_bindLift hrun
    exact members_isValue (identifier_isValue hbase) (Returns.of_lift hrest)
  | .scoped _ _ _ => by
    unfold expression
    exact .bind fun _ => .bind fun _ => .pure trivial
  | .literal span => by
    unfold expression numberLiteral
    refine .bind fun text => ?_
    split
    · exact .pure trivial
    · exact .fail
  | .realLiteral span => by
    unfold expression
    refine .lift fun s e u hrun => ?_
    obtain ⟨text, t, -, hrest⟩ := SessionM.exists_of_bind hrun
    cases hrest
    trivial
  | .stringLiteral span => by
    unfold expression
    refine .lift fun s e u hrun => ?_
    obtain ⟨text, t, -, hrest⟩ := SessionM.exists_of_bind hrun
    cases hrest
    trivial
  | .index _ _ _ => by
    unfold expression
    exact .bind fun _ => .bind fun _ => .pure trivial
  | .rangeSelect _ _ _ _ => by
    unfold expression
    exact .bind fun _ => .bind fun _ => .bind fun _ => .pure trivial
  | .partSelect _ _ _ _ _ => by
    unfold expression
    exact .bind fun _ => .bind fun _ => .bind fun _ => .pure trivial
  | .concat _ _ => by
    unfold expression
    exact .bind fun _ => .pure trivial
  | .replicate _ _ _ => by
    unfold expression
    exact .bind fun _ => .bind fun _ => .pure trivial
  | .unary _ _ _ => by
    unfold expression
    exact .bind fun _ => .pure trivial
  | .binary _ _ _ _ => by
    unfold expression
    exact .bind fun _ => .bind fun _ => .pure trivial
  | .ternary _ _ _ _ => by
    unfold expression
    exact .bind fun _ => .bind fun _ => .bind fun _ => .pure trivial
  | .call _ _ _ => by
    unfold expression
    exact .bind fun _ => .bind fun _ => .pure trivial
  | .systemCall _ _ _ => by
    unfold expression
    exact .bind fun _ => .pure trivial
  | .paren inner _ => by
    unfold expression
    exact expression_isValue inner
  | .error _ => by
    unfold expression
    exact .fail

theorem packed_isValue (ranges : List Syntax.Range) (base : Expr) (hbase : base.IsValue) :
    GivesOnly Expr.IsValue (packed ctx base ranges) := by
  induction ranges generalizing base with
  | nil => exact .pure hbase
  | cons r ranges ih => exact .bind fun bounds => ih (.index base bounds) trivial

theorem paramValue_isValue (value : Syntax.ParamValue) :
    GivesOnly Expr.IsValue (paramValue ctx value) := by
  cases value with
  | expr tree => exact expression_isValue tree
  | dataType type =>
    simp only [paramValue, dataType]
    split
    · exact .bind fun _ => .bind fun keyword => packed_isValue type.packed (.id keyword) trivial
    · exact .bind fun keyword => packed_isValue type.packed (.id keyword) trivial

end Values

section Entries

variable {ctx : Context} {e : Expr} {es : List Expr} {s t : Session}

/-- What may be left out is open exactly where it is. -/
theorem optional_open {α : Type} {lower : α → LowerM Expr} {given : Option α}
    (hvalue : ∀ a, GivesOnly Expr.IsValue (lower a)) (h : Returns (optional lower given) s e t) :
    e.isAssociation = false ∧ (e = .null ↔ given = none) := by
  cases given with
  | none =>
    obtain ⟨rfl, -⟩ := Returns.of_pure h
    exact ⟨rfl, iff_of_true rfl rfl⟩
  | some a =>
    have he := hvalue a _ _ _ h
    exact ⟨he.isAssociation, iff_of_false he.ne_null nofun⟩

/-- A name and what it is bound to, lowered one after the other. -/
theorem bindsName {α : Type} {lower : α → LowerM Expr} {name : Syntax.Identifier}
    {given : Option α} (hvalue : ∀ a, GivesOnly Expr.IsValue (lower a))
    (h : Returns (do
      let key ← identifier name
      let value ← optional lower given
      return .association key value) s e t) : BindsName t.names name given e := by
  obtain ⟨key, u, hkey, hrest⟩ := Returns.of_bindLift h
  obtain ⟨value, hvalue', rfl⟩ := Returns.of_map hrest
  obtain ⟨bare, rfl, hbare⟩ := identifier_bare hkey
  exact ⟨bare, value, rfl, hbare.mono hvalue'.names_extends, optional_open hvalue hvalue'⟩

theorem BindsName.mono {α : Type} {names later : Names} {key : Syntax.Identifier}
    {given : Option α} (h : BindsName names key given e) (hlater : names.Extends later) :
    BindsName later key given e := by
  obtain ⟨bare, value, he, hbare, hopen⟩ := h
  exact ⟨bare, value, he, hbare.mono hlater, hopen⟩

theorem BindsName.isAssociation {α : Type} {names : Names} {key : Syntax.Identifier}
    {given : Option α} (h : BindsName names key given e) : e.isAssociation = true := by
  obtain ⟨bare, value, rfl, -⟩ := h
  rfl

theorem bindsParams {list : Syntax.ParamList} (h : Returns (paramList ctx list) s es t) :
    BindsParams t.names list es := by
  cases list with
  | ordered values =>
    refine .ordered (Returns.of_mapM h fun value _ u e v _ hrun _ => ?_)
    exact paramValue_isValue value u e v hrun
  | named items =>
    refine .named (Returns.of_mapM h fun p _ u e v _ hrun hlater => ?_)
    exact (bindsName paramValue_isValue hrun).mono hlater

theorem bindsPort {p : Syntax.NamedPort} (h : Returns (namedPort ctx p) s e t) :
    BindsPort t.names p.target e := by
  obtain ⟨-, u, -, hrest⟩ := Returns.of_bindLift h
  split at hrest
  next htarget =>
    obtain ⟨rfl, -⟩ := Returns.of_pure hrest
    rw [htarget]
    exact .wildcard
  next name actual htarget =>
    rw [htarget]
    exact .port (bindsName expression_isValue hrest)

theorem BindsPort.mono {names later : Names} {target : Syntax.PortTarget}
    (h : BindsPort names target e) (hlater : names.Extends later) : BindsPort later target e := by
  cases h with
  | wildcard => exact .wildcard
  | port hname => exact .port (hname.mono hlater)

theorem BindsPort.isAssociation {names : Names} {target : Syntax.PortTarget}
    (h : BindsPort names target e) : e.isAssociation = true := by
  cases h with
  | wildcard => rfl
  | port hname => exact hname.isAssociation

theorem bindsPorts {list : Syntax.PortList} (h : Returns (portList ctx list) s es t) :
    BindsPorts t.names list es := by
  cases list with
  | ordered ports =>
    refine .ordered (Returns.of_mapM h fun p _ u e v _ hrun _ => ?_)
    obtain ⟨-, w, -, hrest⟩ := Returns.of_bindLift hrun
    exact optional_open expression_isValue hrest
  | named ports =>
    refine .named (Returns.of_mapM h fun p _ u e v _ hrun hlater => ?_)
    exact (bindsPort hrun).mono hlater

end Entries

section Maps

variable {names : Names} {es : List Expr}

theorem homogeneous_of_forall₂ {α : Type} {R : α → Expr → Prop} {as : List α} {named : Bool}
    (h : Forall₂ R as es) (hentry : ∀ a e, R a e → e.isAssociation = named) :
    Homogeneous as.length named es := by
  have hall : ∀ e ∈ es, e.isAssociation = named := by
    induction h with
    | nil => exact List.forall_mem_nil _
    | cons he _ ih => exact List.forall_mem_cons.mpr ⟨hentry _ _ he, ih⟩
  rw [h.length_eq]
  exact Design.homogeneous hall

theorem BindsParams.homogeneous {list : Syntax.ParamList} (h : BindsParams names list es) :
    Homogeneous list.length list.isNamed es := by
  cases h with
  | ordered hvalues => exact homogeneous_of_forall₂ hvalues fun _ _ he => he.isAssociation
  | named hitems => exact homogeneous_of_forall₂ hitems fun _ _ he => he.isAssociation

theorem BindsPorts.homogeneous {list : Syntax.PortList} (h : BindsPorts names list es) :
    Homogeneous list.length list.isNamed es := by
  cases h with
  | ordered hports => exact homogeneous_of_forall₂ hports fun _ _ he => he.1
  | named hports => exact homogeneous_of_forall₂ hports fun _ _ he => he.isAssociation

end Maps

section Modules

variable {ctx : Context}

/-- An instance whose maps are each bound one way. -/
def Unmixed (i : Design.Instance) : Prop :=
  Style.of i.generics ≠ .mixed ∧ Style.of i.ports ≠ .mixed

theorem generics_unmixed (clause : Option Syntax.ParamClause) :
    GivesOnly (fun es => Style.of es ≠ .mixed) (generics ctx clause) := by
  unfold generics
  split
  next list _ => exact fun _ _ _ hrun => (bindsParams hrun).homogeneous.pure
  next => exact .pure nofun

theorem instantiation_unmixed (stmt : Syntax.Instantiation) :
    GivesOnly (fun is => ∀ i ∈ is, Unmixed i) (instantiation ctx stmt) := by
  intro s is u hrun
  obtain ⟨-, shared, t, hshared, hsteps⟩ := Returns.of_instantiation hrun
  refine hsteps.forall_mem fun i v d w hinstance => ?_
  obtain ⟨hgenerics, -, _, _, _, _, hports, -⟩ := Returns.of_hierarchicalInstance hinstance
  refine ⟨?_, (bindsPorts hports).homogeneous.pure⟩
  rw [hgenerics]
  exact generics_unmixed stmt.params s shared t hshared

theorem item_unmixed (i : Syntax.Item) :
    GivesOnly (fun is => ∀ i ∈ is, Unmixed i) (item ctx i) := by
  cases i with
  | instantiation stmt => exact instantiation_unmixed stmt
  | skipped leading span =>
    exact .bind fun _ => .bind fun _ => .pure (List.forall_mem_nil _)
  | error span => exact .fail

theorem reportingFaults_unmixed {x : LowerM (List Design.Instance)} {is : List Design.Instance}
    {s t : Session} (hx : GivesOnly (fun is => ∀ i ∈ is, Unmixed i) x)
    (h : (reportingFaults x).run.run s = (.ok is, t)) : ∀ i ∈ is, Unmixed i := by
  obtain ⟨r, u, hrun, hrest⟩ := SessionM.exists_of_bind h
  cases r with
  | ok is' =>
    cases hrest
    exact hx s is t hrun
  | error f =>
    obtain ⟨_, _, -, hrest⟩ := SessionM.exists_of_bind hrest
    cases hrest
    exact List.forall_mem_nil _

theorem designUnit_unmixed {u : Syntax.DesignUnit} {m : Design.Module} {s t : Session}
    (h : (designUnit ctx u).run.run s = (.ok m, t)) : ∀ i ∈ m.instances, Unmixed i := by
  obtain ⟨groups, v, hgroups, hrest⟩ := SessionM.exists_of_bind h
  obtain ⟨name, _, -, hrest⟩ := SessionM.exists_of_bind hrest
  cases hrest
  have hall := (SessionM.steps_of_mapM hgroups).forall_mem fun i _ _ _ =>
    reportingFaults_unmixed (item_unmixed i)
  intro i hi
  obtain ⟨group, hgroup, hi⟩ := List.mem_flatten.mp hi
  exact hall group hgroup i hi

/-- Maps keep the shape of the lists they come from, entry by entry, and no instance has one that is
bound in two ways. -/
theorem maps_homogeneous (ctx : Context) :
    (∀ (list : Syntax.ParamList) (s t : Session) (es : List Expr),
      Returns (paramList ctx list) s es t →
        Homogeneous list.length list.isNamed es ∧ BindsParams t.names list es) ∧
    (∀ (list : Syntax.PortList) (s t : Session) (es : List Expr),
      Returns (portList ctx list) s es t →
        Homogeneous list.length list.isNamed es ∧ BindsPorts t.names list es) ∧
    ∀ (tree : Syntax.SourceText) (s t : Session) (ms : List Design.Module),
      (sourceText ctx tree).run.run s = (.ok ms, t) → ∀ m ∈ ms, ∀ i ∈ m.instances, Unmixed i := by
  refine ⟨fun list s t es hrun => ?_, fun list s t es hrun => ?_, fun tree s t ms hrun => ?_⟩
  · exact ⟨(bindsParams hrun).homogeneous, bindsParams hrun⟩
  · exact ⟨(bindsPorts hrun).homogeneous, bindsPorts hrun⟩
  · exact (SessionM.steps_of_mapM hrun).forall_mem fun _ _ _ _ => designUnit_unmixed

section Sample

/-- A place for trees that were never text. -/
def nowhere : Span := ⟨0, 0, 0⟩

/-- `#(.W(logic))`, with the name `W` entered second. -/
def sampleParams : Syntax.ParamList :=
  .named [⟨⟨1, nowhere⟩, some (.dataType ⟨.logic, none, [], nowhere⟩), nowhere⟩]

/-- `(.\b (), .*)`, with the escaped name entered first. -/
def samplePorts : Syntax.PortList :=
  .named [⟨[], .port ⟨0, nowhere⟩ none, nowhere⟩, ⟨[], .wildcard, nowhere⟩]

def sampleText : Syntax.SourceText :=
  let stmt : Syntax.Instantiation := ⟨⟨1, nowhere⟩, some ⟨some sampleParams, nowhere⟩,
    [⟨⟨⟨1, nowhere⟩, [], nowhere⟩, samplePorts, nowhere⟩], nowhere⟩
  ⟨[⟨.module, ⟨1, nowhere⟩, [.instantiation stmt, .error nowhere], none, nowhere⟩], nowhere⟩

def sampleSession : Session := { names := .ofList ["\\b", "W"] }

theorem maps_homogeneous_escaped :
    (∃ t, Returns (paramList ⟨{}, .warning⟩ sampleParams) sampleSession
        [.association (.id 1) (.id 2)] t ∧
      Homogeneous 1 true [.association (.id 1) (.id 2)] ∧
      BindsParams t.names sampleParams [.association (.id 1) (.id 2)]) ∧
    (∃ t, Returns (portList ⟨{}, .warning⟩ samplePorts) sampleSession
        [.association (.id 2) .null, .association .all .null] t ∧
      Homogeneous 2 true [.association (.id 2) .null, .association .all .null] ∧
      BindsPorts t.names samplePorts [.association (.id 2) .null, .association .all .null]) ∧
    ∃ m t, (sourceText ⟨{}, .warning⟩ sampleText).run.run sampleSession = (.ok [m], t) ∧
      m.instances.length = 1 ∧ ∀ i ∈ m.instances, Unmixed i := by
  obtain ⟨hparams, hports, htext⟩ := maps_homogeneous ⟨{}, .warning⟩
  have hparamsRun : Returns (paramList ⟨{}, .warning⟩ sampleParams) sampleSession
      [.association (.id 1) (.id 2)] _ := Prod.ext (by decide +kernel) rfl
  have hportsRun : Returns (portList ⟨{}, .warning⟩ samplePorts) sampleSession
      [.association (.id 2) .null, .association .all .null] _ := Prod.ext (by decide +kernel) rfl
  have htextRun : (sourceText ⟨{}, .warning⟩ sampleText).run.run sampleSession =
      (.ok [⟨.id 1, [⟨.id 1, .id 1, [.association (.id 1) (.id 2)],
        [.association (.id 3) .null, .association .all .null], nowhere⟩], nowhere⟩], _) :=
    Prod.ext (by decide +kernel) rfl
  refine ⟨⟨_, hparamsRun, hparams _ _ _ _ hparamsRun⟩, ⟨_, hportsRun, hports _ _ _ _ hportsRun⟩,
    ⟨_, _, htextRun, rfl, htext _ _ _ _ htextRun _ (List.mem_singleton_self _)⟩⟩

end Sample

end Modules

end Lowering

end Netlist
