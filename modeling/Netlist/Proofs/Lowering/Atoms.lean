import Netlist.Proofs.Lowering.Records

/-!
The atoms of trees: names, keywords and literals, listed in one order on both sides. Lowering makes
one atom of a design of each atom of a statement without a fault, so the two lists go in pairs: a
name with what it is without its backslash, a literal with its value. A generic map that several
instances share is listed for each of them.
-/
namespace Netlist

open List (Forall₂)

namespace Syntax

/-- The parts of a tree that a design keeps. -/
inductive Atom where
  | name (i : Identifier)
  /-- The name of a system function. -/
  | system (i : Identifier)
  | keyword (kind : BuiltinType)
  | number (span : Span)
  | real (span : Span)
  | string (span : Span)

/-- The atoms of a node itself. -/
def Expr.ownAtoms : Expr → List Atom
  | .identifier name => [.name name]
  | .hierarchical parts _ => parts.map .name
  | .scoped scope name _ => [.name scope, .name name]
  | .literal span => [.number span]
  | .realLiteral span => [.real span]
  | .stringLiteral span => [.string span]
  | .systemCall name _ _ => [.system name]
  | _ => []

/-- The atoms of an expression, from left to right. -/
def Expr.atoms (e : Expr) : List Atom := e.subtrees.flatMap Expr.ownAtoms

def Expr.atomsOf (es : List Expr) : List Atom := (Expr.subtreesOf es).flatMap Expr.ownAtoms

section Nodes

variable (a b c : Expr) (es : List Expr) (span : Span)

theorem Expr.atoms_hierarchical (parts : List Identifier) :
    (Expr.hierarchical parts span).atoms = parts.map .name := List.append_nil _

theorem Expr.atoms_index : (Expr.index a b span).atoms = a.atoms ++ b.atoms :=
  List.flatMap_append

theorem Expr.atoms_rangeSelect :
    (Expr.rangeSelect a b c span).atoms = a.atoms ++ (b.atoms ++ c.atoms) :=
  List.flatMap_append.trans (congrArg (a.atoms ++ ·) List.flatMap_append)

theorem Expr.atoms_partSelect (ascending : Bool) :
    (Expr.partSelect a b ascending c span).atoms = a.atoms ++ (b.atoms ++ c.atoms) :=
  List.flatMap_append.trans (congrArg (a.atoms ++ ·) List.flatMap_append)

theorem Expr.atoms_concat : (Expr.concat es span).atoms = Expr.atomsOf es := rfl

theorem Expr.atoms_replicate :
    (Expr.replicate a es span).atoms = a.atoms ++ Expr.atomsOf es := List.flatMap_append

theorem Expr.atoms_unary (op : UnaryOp) : (Expr.unary op a span).atoms = a.atoms := rfl

theorem Expr.atoms_binary (op : BinaryOp) :
    (Expr.binary a op b span).atoms = a.atoms ++ b.atoms := List.flatMap_append

theorem Expr.atoms_ternary :
    (Expr.ternary a b c span).atoms = a.atoms ++ (b.atoms ++ c.atoms) :=
  List.flatMap_append.trans (congrArg (a.atoms ++ ·) List.flatMap_append)

theorem Expr.atoms_call : (Expr.call a es span).atoms = a.atoms ++ Expr.atomsOf es :=
  List.flatMap_append

theorem Expr.atoms_systemCall (i : Identifier) :
    (Expr.systemCall i es span).atoms = .system i :: Expr.atomsOf es := rfl

theorem Expr.atoms_paren : (Expr.paren a span).atoms = a.atoms := rfl

theorem Expr.atomsOf_cons : Expr.atomsOf (a :: es) = a.atoms ++ Expr.atomsOf es :=
  List.flatMap_append

end Nodes

def Range.atoms (r : Range) : List Atom := r.msb.atoms ++ r.lsb.atoms

def DataType.atoms (t : DataType) : List Atom := .keyword t.kind :: t.packed.flatMap Range.atoms

def ParamValue.atoms : ParamValue → List Atom
  | .expr value => value.atoms
  | .dataType type => type.atoms

def NamedParam.atoms (p : NamedParam) : List Atom :=
  .name p.name :: p.value.toList.flatMap ParamValue.atoms

def ParamList.atoms : ParamList → List Atom
  | .ordered values => values.flatMap ParamValue.atoms
  | .named items => items.flatMap NamedParam.atoms

def ParamClause.atoms (p : ParamClause) : List Atom := p.list.toList.flatMap ParamList.atoms

def Dimension.atoms : Dimension → List Atom
  | .range bounds => bounds.atoms
  | .size count _ => count.atoms

def InstanceName.atoms (n : InstanceName) : List Atom :=
  .name n.name :: n.dimensions.flatMap Dimension.atoms

def OrderedPort.atoms (p : OrderedPort) : List Atom := p.expr.toList.flatMap Expr.atoms

def PortTarget.atoms : PortTarget → List Atom
  | .wildcard => []
  | .port name actual => .name name :: actual.toList.flatMap Expr.atoms

def PortList.atoms : PortList → List Atom
  | .ordered ports => ports.flatMap OrderedPort.atoms
  | .named ports => ports.flatMap fun p => p.target.atoms

/-- The atoms of one instance, with those it has from its statement. -/
def Instance.atoms (module : Identifier) (params : Option ParamClause) (i : Instance) : List Atom :=
  i.name.atoms ++ (.name module :: (params.toList.flatMap ParamClause.atoms ++
    i.connections.atoms))

def Instantiation.atoms (s : Instantiation) : List Atom :=
  s.instances.flatMap (Instance.atoms s.module s.params)

/-- Nothing is kept of an item that has a fault. -/
def Item.atoms (ctx : Lowering.Context) : Item → List Atom
  | .instantiation stmt => if (Lowering.faultIn? ctx (.instantiation stmt)).isSome then []
    else stmt.atoms
  | .skipped _ _ => []
  | .error _ => []

def DesignUnit.atoms (ctx : Lowering.Context) (u : DesignUnit) : List Atom :=
  .name u.name :: u.items.flatMap (Item.atoms ctx)

def SourceText.atoms (ctx : Lowering.Context) (t : SourceText) : List Atom :=
  t.units.flatMap (DesignUnit.atoms ctx)

end Syntax

namespace Design

inductive Atom where
  | id (index : Nat)
  | literal (value : Literal)
  deriving DecidableEq

mutual

def Expr.atoms : Expr → List Atom
  | .id index => [.id index]
  | .literal value => [.literal value]
  | .all => []
  | .null => []
  | .unary _ operand => operand.atoms
  | .binary _ left right => left.atoms ++ right.atoms
  | .ternary cond ifTrue ifFalse => cond.atoms ++ (ifTrue.atoms ++ ifFalse.atoms)
  | .call callee args => callee.atoms ++ Expr.atomsOf args
  | .concat elements => Expr.atomsOf elements
  | .replicate count elements => count.atoms ++ Expr.atomsOf elements

def Expr.atomsOf : List Expr → List Atom
  | [] => []
  | e :: es => e.atoms ++ Expr.atomsOf es

end

theorem Expr.atoms_foldl_index (bounds : List Expr) (base : Expr) :
    (bounds.foldl .index base).atoms = base.atoms ++ bounds.flatMap Expr.atoms := by
  induction bounds generalizing base with
  | nil => exact (List.append_nil _).symm
  | cons b bounds ih =>
    rw [List.foldl_cons, ih, List.flatMap_cons, index, atoms, List.append_assoc]

def Instance.atoms (i : Instance) : List Atom :=
  i.name.atoms ++ (i.module.atoms ++ (i.generics.flatMap Expr.atoms ++ i.ports.flatMap Expr.atoms))

def Module.atoms (m : Module) : List Atom := m.name.atoms ++ m.instances.flatMap Instance.atoms

end Design

namespace Lowering

open Design (Expr)

/-- What a design has for an atom of a tree, where names are looked up in `names`. -/
inductive Lowered (ctx : Context) (names : Names) : Syntax.Atom → Design.Atom → Prop
  | name {i : Syntax.Identifier} {bare : Nat} :
      names.Bare i.name bare → Lowered ctx names (.name i) (.id bare)
  | system (i : Syntax.Identifier) : Lowered ctx names (.system i) (.id i.name)
  | keyword {kind : BuiltinType} {index : Nat} : names.resolve? index = some kind.text →
      Lowered ctx names (.keyword kind) (.id index)
  | number {span : Span} {text : String} {value : Design.Literal} :
      ctx.sources.snippet span = .ok text → number? text.toList = some value →
      Lowered ctx names (.number span) (.literal value)
  | real {span : Span} {text : String} : ctx.sources.snippet span = .ok text →
      Lowered ctx names (.real span)
        (.literal (.real (String.ofList (withoutSeparators text.toList))))
  | string {span : Span} {text : String} : ctx.sources.snippet span = .ok text →
      Lowered ctx names (.string span)
        (.literal (.str (String.ofList (stringValue text.toList))))

variable {ctx : Context} {names later : Names} {s t : Session}

theorem Lowered.mono {a : Syntax.Atom} {b : Design.Atom} (h : Lowered ctx names a b)
    (hlater : names.Extends later) : Lowered ctx later a b := by
  cases h with
  | name hbare => exact .name (hbare.mono hlater)
  | system i => exact .system i
  | keyword hindex => exact .keyword (hlater.resolve? hindex)
  | number htext hvalue => exact .number htext hvalue
  | real htext => exact .real htext
  | string htext => exact .string htext

/-- All atoms in `as` are lowered to those in `bs`. -/
def AllLowered (ctx : Context) (names : Names) (as : List Syntax.Atom) (bs : List Design.Atom) :
    Prop := Forall₂ (Lowered ctx names) as bs

theorem AllLowered.mono {as : List Syntax.Atom} {bs : List Design.Atom}
    (h : AllLowered ctx names as bs) (hlater : names.Extends later) :
    AllLowered ctx later as bs := h.imp fun _ _ h => h.mono hlater

theorem AllLowered.append {as as' : List Syntax.Atom} {bs bs' : List Design.Atom}
    (h : AllLowered ctx names as bs) (h' : AllLowered ctx names as' bs') :
    AllLowered ctx names (as ++ as') (bs ++ bs') := List.rel_append h h'

theorem AllLowered.flatMap {α β : Type} {f : α → List Syntax.Atom} {g : β → List Design.Atom}
    {cs : List α} {ds : List β}
    (h : Forall₂ (fun c d => AllLowered ctx names (f c) (g d)) cs ds) :
    AllLowered ctx names (cs.flatMap f) (ds.flatMap g) := List.rel_flatMap h fun _ _ h => h

theorem AllLowered.exists_of_mem {as : List Syntax.Atom} {bs : List Design.Atom}
    (h : AllLowered ctx names as bs) {b : Design.Atom} (hb : b ∈ bs) :
    ∃ a ∈ as, Lowered ctx names a b := by
  induction h with
  | nil => cases hb
  | cons hfirst _ ih =>
    rcases List.mem_cons.mp hb with rfl | hb
    · exact ⟨_, List.mem_cons_self, hfirst⟩
    · obtain ⟨a, ha, hlowered⟩ := ih hb
      exact ⟨a, List.mem_cons_of_mem _ ha, hlowered⟩

/-- The value of the lowering has the atoms in `front`, and behind them those that `as` is lowered
to. -/
def Carries {α : Type} (ctx : Context) (front : List Design.Atom) (as : List Syntax.Atom)
    (atoms : α → List Design.Atom) (x : LowerM α) : Prop :=
  ∀ s a t, Returns x s a t → ∃ bs, atoms a = front ++ bs ∧ AllLowered ctx t.names as bs

namespace Carries

variable {α β : Type} {front : List Design.Atom} {as as' : List Syntax.Atom}
  {f : α → List Design.Atom} {g : β → List Design.Atom}

theorem pure {a : α} (h : f a = front) : Carries ctx front [] f (Pure.pure a) := by
  intro s b t hrun
  obtain ⟨rfl, rfl⟩ := Returns.of_pure hrun
  exact ⟨[], by rw [h, List.append_nil], .nil⟩

theorem fail {fault : Fault} : Carries ctx front as f (Lowering.fail fault) :=
  fun _ _ _ hrun => nomatch hrun

theorem bind {x : LowerM α} {y : α → LowerM β} (hx : Carries ctx [] as f x)
    (hy : ∀ a, Carries ctx (front ++ f a) as' g (y a)) :
    Carries ctx front (as ++ as') g (x >>= y) := by
  intro s b u hrun
  obtain ⟨a, t, hfirst, hrest⟩ := Returns.of_bind hrun
  obtain ⟨bs, hbs, hlowered⟩ := hx s a t hfirst
  obtain ⟨bs', hbs', hlowered'⟩ := hy a t b u hrest
  refine ⟨bs ++ bs', ?_, (hlowered.mono hrest.names_extends).append hlowered'⟩
  rw [hbs', hbs, List.nil_append, List.append_assoc]

/-- The last part of a lowering. -/
theorem map {x : LowerM α} {k : α → β} (hx : Carries ctx [] as f x)
    (hk : ∀ a, g (k a) = front ++ f a) :
    Carries ctx front as g (x >>= fun a => Pure.pure (k a)) := by
  have hboth := hx.bind fun a => Carries.pure (f := g) (hk a)
  rwa [List.append_nil] at hboth

/-- A part of which the value has nothing. -/
theorem skip {x : LowerM α} {y : α → LowerM β} (hy : ∀ a, Carries ctx front as g (y a)) :
    Carries ctx front as g (x >>= y) := by
  intro s b u hrun
  obtain ⟨a, t, -, hrest⟩ := Returns.of_bind hrun
  exact hy a t b u hrest

theorem lift {x : SessionM α} (h : ∀ s a t, x.run.run s = (.ok a, t) →
    ∃ bs, f a = front ++ bs ∧ AllLowered ctx t.names as bs) :
    Carries ctx front as f (ExceptT.lift x) := fun s a t hrun => h s a t (Returns.of_lift hrun)

theorem mapM {γ : Type} {cs : List γ} {y : γ → LowerM α} {as : γ → List Syntax.Atom}
    (h : ∀ c ∈ cs, Carries ctx [] (as c) f (y c)) :
    Carries ctx [] (cs.flatMap as) (fun ds => ds.flatMap f) (cs.mapM y) := by
  intro s ds t hrun
  refine ⟨ds.flatMap f, rfl, .flatMap (Returns.of_mapM hrun fun c hc u a v _ hrun hlater => ?_)⟩
  obtain ⟨bs, hbs, hlowered⟩ := h c hc u a v hrun
  rw [hbs]
  exact hlowered.mono hlater

/-- What is carried does not depend on the session. -/
theorem of_yields {x : LowerM α} {a : α} (h : Carries ctx [] as f x) (ha : Yields names x a) :
    AllLowered ctx names as (f a) := by
  obtain ⟨t, hrun, hnames⟩ := ha ⟨names, {}⟩ (Names.Extends.refl names)
  obtain ⟨bs, hbs, hlowered⟩ := h _ _ _ hrun
  rw [hbs]
  rwa [hnames] at hlowered

end Carries

section Expressions

theorem carries_identifier (i : Syntax.Identifier) :
    Carries ctx [] [.name i] Expr.atoms (ExceptT.lift (identifier i)) := by
  refine .lift fun s e t hrun => ?_
  obtain ⟨bare, rfl, hbare⟩ := identifier_bare hrun
  exact ⟨[.id bare], rfl, .cons (.name hbare) .nil⟩

theorem carries_members (parts : List Syntax.Identifier) (base : Expr) :
    Carries ctx base.atoms (parts.map .name) Expr.atoms (ExceptT.lift (members base parts)) := by
  refine .lift fun s e t hrun => ?_
  induction parts generalizing base s with
  | nil =>
    cases hrun
    exact ⟨[], (List.append_nil _).symm, .nil⟩
  | cons part parts ih =>
    obtain ⟨name, u, hname, hrest⟩ := SessionM.exists_of_bind hrun
    obtain ⟨bare, rfl, hbare⟩ := identifier_bare hname
    obtain ⟨bs, hbs, hlowered⟩ := ih _ _ hrest
    refine ⟨.id bare :: bs, ?_, .cons (.name (hbare.mono (Task.extends_of_run hrest))) hlowered⟩
    rw [hbs]
    simp [Expr.atoms]

theorem snippet_of_run {span : Span} {text : String}
    (h : (snippet ctx span).run.run s = (.ok text, t)) : ctx.sources.snippet span = .ok text := by
  unfold snippet at h
  cases hfound : ctx.sources.snippet span with
  | ok found =>
    rw [hfound] at h
    cases h
    rfl
  | error m =>
    rw [hfound] at h
    cases h

theorem carries_numberLiteral (span : Span) :
    Carries ctx [] [.number span] Expr.atoms (numberLiteral ctx span) := by
  intro s e t hrun
  obtain ⟨text, u, htext, hrest⟩ := Returns.of_bindLift hrun
  split at hrest
  next value hvalue =>
    obtain ⟨rfl, rfl⟩ := Returns.of_pure hrest
    exact ⟨[.literal value], rfl, .cons (.number (snippet_of_run htext) hvalue) .nil⟩
  next => cases hrest

theorem carries_realLiteral (span : Span) :
    Carries ctx [] [.real span] Expr.atoms (ExceptT.lift (realLiteral ctx span)) := by
  refine .lift fun s e t hrun => ?_
  obtain ⟨text, u, htext, hrest⟩ := SessionM.exists_of_bind hrun
  cases hrest
  exact ⟨_, rfl, .cons (.real (snippet_of_run htext)) .nil⟩

theorem carries_stringLiteral (span : Span) :
    Carries ctx [] [.string span] Expr.atoms (ExceptT.lift (stringLiteral ctx span)) := by
  refine .lift fun s e t hrun => ?_
  obtain ⟨text, u, htext, hrest⟩ := SessionM.exists_of_bind hrun
  cases hrest
  exact ⟨_, rfl, .cons (.string (snippet_of_run htext)) .nil⟩

mutual

theorem carries_expression : (e : Syntax.Expr) →
    Carries ctx [] e.atoms Expr.atoms (expression ctx e)
  | .identifier i => by
    unfold expression
    exact carries_identifier i
  | .hierarchical [] _ => by
    unfold expression
    exact .fail
  | .hierarchical (first :: parts) _ => by
    unfold expression
    rw [Syntax.Expr.atoms_hierarchical]
    exact (carries_identifier first).bind fun base => carries_members parts base
  | .scoped scope name _ => by
    unfold expression
    exact (carries_identifier scope).bind fun a =>
      (carries_identifier name).map fun b => by simp [Expr.atoms]
  | .literal span => by
    unfold expression
    exact carries_numberLiteral span
  | .realLiteral span => by
    unfold expression
    exact carries_realLiteral span
  | .stringLiteral span => by
    unfold expression
    exact carries_stringLiteral span
  | .index a b _ => by
    unfold expression
    rw [Syntax.Expr.atoms_index]
    exact (carries_expression a).bind fun _ =>
      (carries_expression b).map fun _ => by simp [Expr.atoms, Expr.index]
  | .rangeSelect a b c _ => by
    unfold expression
    rw [Syntax.Expr.atoms_rangeSelect]
    exact (carries_expression a).bind fun _ => (carries_expression b).bind fun _ =>
      (carries_expression c).map fun _ => by simp [Expr.atoms, Expr.index, Expr.downto]
  | .partSelect a b _ c _ => by
    unfold expression
    rw [Syntax.Expr.atoms_partSelect]
    exact (carries_expression a).bind fun _ => (carries_expression b).bind fun _ =>
      (carries_expression c).map fun _ => by simp [Expr.atoms, Expr.index]
  | .concat es _ => by
    unfold expression
    rw [Syntax.Expr.atoms_concat]
    exact (carries_expressions es).map fun _ => by simp [Expr.atoms]
  | .replicate n es _ => by
    unfold expression
    rw [Syntax.Expr.atoms_replicate]
    exact (carries_expression n).bind fun _ =>
      (carries_expressions es).map fun _ => by simp [Expr.atoms]
  | .unary _ a _ => by
    unfold expression
    rw [Syntax.Expr.atoms_unary]
    exact (carries_expression a).map fun _ => by simp [Expr.atoms]
  | .binary a _ b _ => by
    unfold expression
    rw [Syntax.Expr.atoms_binary]
    exact (carries_expression a).bind fun _ =>
      (carries_expression b).map fun _ => by simp [Expr.atoms]
  | .ternary a b c _ => by
    unfold expression
    rw [Syntax.Expr.atoms_ternary]
    exact (carries_expression a).bind fun _ => (carries_expression b).bind fun _ =>
      (carries_expression c).map fun _ => by simp [Expr.atoms]
  | .call f es _ => by
    unfold expression
    rw [Syntax.Expr.atoms_call]
    exact (carries_expression f).bind fun _ =>
      (carries_expressions es).map fun _ => by simp [Expr.atoms]
  | .systemCall i es _ => by
    unfold expression
    rw [Syntax.Expr.atoms_systemCall]
    intro s e t hrun
    obtain ⟨args, hargs, rfl⟩ := Returns.of_map hrun
    obtain ⟨bs, hbs, hlowered⟩ := carries_expressions es s args t hargs
    exact ⟨.id i.name :: bs, by simp [Expr.atoms, hbs], .cons (.system i) hlowered⟩
  | .paren a _ => by
    unfold expression
    rw [Syntax.Expr.atoms_paren]
    exact carries_expression a
  | .error _ => by
    unfold expression
    exact .fail

theorem carries_expressions : (es : List Syntax.Expr) →
    Carries ctx [] (Syntax.Expr.atomsOf es) Expr.atomsOf (expressions ctx es)
  | [] => by
    unfold expressions
    exact .pure rfl
  | e :: es => by
    unfold expressions
    rw [Syntax.Expr.atomsOf_cons]
    exact (carries_expression e).bind fun _ =>
      (carries_expressions es).map fun _ => by simp [Expr.atomsOf]

end

end Expressions

section Statements

theorem carries_range (r : Syntax.Range) : Carries ctx [] r.atoms Expr.atoms (range ctx r) :=
  (carries_expression r.msb).bind fun _ =>
    (carries_expression r.lsb).map fun _ => by simp [Expr.atoms, Expr.downto]

theorem carries_packed (rs : List Syntax.Range) (base : Expr) :
    Carries ctx base.atoms (rs.flatMap Syntax.Range.atoms) Expr.atoms (packed ctx base rs) := by
  induction rs generalizing base with
  | nil => exact .pure rfl
  | cons r rs ih =>
    unfold packed
    rw [List.flatMap_cons]
    refine (carries_range r).bind fun bounds => ?_
    have hselect : (Expr.index base bounds).atoms = base.atoms ++ bounds.atoms := by
      simp [Expr.atoms, Expr.index]
    rw [← hselect]
    exact ih (.index base bounds)

theorem carries_dataType (type : Syntax.DataType) :
    Carries ctx [] type.atoms Expr.atoms (dataType ctx type) := by
  have hkeyword : Carries ctx [] type.atoms Expr.atoms (do
      let keyword ← intern type.kind.text
      packed ctx (.id keyword) type.packed) := by
    intro s e t hrun
    obtain ⟨keyword, u, hintern, hrest⟩ := Returns.of_bindLift hrun
    cases hintern
    obtain ⟨bs, hbs, hlowered⟩ := carries_packed type.packed _ _ _ _ hrest
    refine ⟨_ :: bs, hbs, .cons (.keyword ?_) hlowered⟩
    exact hrest.names_extends.resolve? (Names.resolve?_intern s.names _)
  unfold dataType
  split
  · exact .skip fun _ => hkeyword
  · exact hkeyword

theorem carries_paramValue (value : Syntax.ParamValue) :
    Carries ctx [] value.atoms Expr.atoms (paramValue ctx value) := by
  cases value with
  | expr e => exact carries_expression e
  | dataType type => exact carries_dataType type

theorem carries_dimension (d : Syntax.Dimension) :
    Carries ctx [] d.atoms Expr.atoms (dimension ctx d) := by
  cases d with
  | range bounds => exact carries_range bounds
  | size count span => exact carries_expression count

theorem carries_optional {α : Type} {lower : α → LowerM Expr} {atoms : α → List Syntax.Atom}
    (h : ∀ a, Carries ctx [] (atoms a) Expr.atoms (lower a)) (given : Option α) :
    Carries ctx [] (given.toList.flatMap atoms) Expr.atoms (optional lower given) := by
  cases given with
  | none => exact .pure (by simp [Expr.atoms])
  | some a =>
    rw [Option.toList_some, List.flatMap_singleton]
    exact h a

/-- A name and what it is bound to. -/
theorem carries_bound {α : Type} {lower : α → LowerM Expr} {atoms : α → List Syntax.Atom}
    (h : ∀ a, Carries ctx [] (atoms a) Expr.atoms (lower a)) (name : Syntax.Identifier)
    (given : Option α) :
    Carries ctx [] (.name name :: given.toList.flatMap atoms) Expr.atoms (do
      let key ← identifier name
      let value ← optional lower given
      return .association key value) :=
  (carries_identifier name).bind fun key => (carries_optional h given).map fun value => by
    simp [Expr.atoms, Expr.association]

theorem carries_paramList (list : Syntax.ParamList) :
    Carries ctx [] list.atoms (fun es => es.flatMap Expr.atoms) (paramList ctx list) := by
  cases list with
  | ordered values => exact .mapM fun value _ => carries_paramValue value
  | named items => exact .mapM fun p _ => carries_bound carries_paramValue p.name p.value

theorem carries_portList (list : Syntax.PortList) :
    Carries ctx [] list.atoms (fun es => es.flatMap Expr.atoms) (portList ctx list) := by
  cases list with
  | ordered ports =>
    exact .mapM fun p _ => .skip fun _ => carries_optional carries_expression p.expr
  | named ports =>
    refine .mapM fun p _ => .skip fun _ => ?_
    split
    next htarget =>
      rw [htarget]
      exact .pure (by simp [Expr.atoms, Expr.association])
    next name actual htarget =>
      rw [htarget]
      exact carries_bound carries_expression name actual

end Statements

section Instances

variable {module : Syntax.Identifier} {params : Option Syntax.ParamClause} {shared : List Expr}

theorem lowered_shared (h : SharedBy ctx names params shared) :
    AllLowered ctx names (params.toList.flatMap Syntax.ParamClause.atoms)
      (shared.flatMap Expr.atoms) := by
  match params with
  | none =>
    obtain rfl : shared = [] := h
    exact .nil
  | some ⟨none, _⟩ =>
    obtain rfl : shared = [] := h
    exact .nil
  | some ⟨some list, _⟩ =>
    have hlist := (carries_paramList list).of_yields h
    simpa [Syntax.ParamClause.atoms] using hlist

/-- The atoms of an instance, with the generic map that its statement shares. -/
theorem lowered_instance {i : Syntax.Instance} {d : Design.Instance}
    (hshared : SharedBy ctx names params shared) (h : Describes ctx names module shared i d) :
    AllLowered ctx names (i.atoms module params) d.atoms := by
  obtain ⟨bare, bounds, hbare, hbounds, hname, -⟩ := h.name
  obtain ⟨moduleBare, hmodule, hmoduleName⟩ := h.module
  have hdimensions : AllLowered ctx names (i.name.dimensions.flatMap Syntax.Dimension.atoms)
      (bounds.flatMap Expr.atoms) :=
    .flatMap (hbounds.imp fun d _ hyields => (carries_dimension d).of_yields hyields)
  have hports := (carries_portList i.connections).of_yields h.ports
  rw [Design.Instance.atoms, hname, Expr.atoms_foldl_index, hmoduleName, h.generics]
  exact .append (.cons (.name hbare) hdimensions)
    (.cons (.name hmodule) ((lowered_shared hshared).append hports))

theorem lowered_item {i : Syntax.Item} {ds : List Diagnostic} {is : List Design.Instance}
    (h : Becomes ctx names i ds is) :
    AllLowered ctx names (i.atoms ctx) (is.flatMap Design.Instance.atoms) := by
  cases h with
  | translated hquiet hshared his =>
    rw [Syntax.Item.atoms, hquiet]
    exact .flatMap (his.imp fun _ _ hd => lowered_instance hshared hd)
  | faulty hvisits hbefore hv _ _ =>
    rw [Syntax.Item.atoms, faultIn?_of_cut hvisits hbefore hv]
    exact .nil
  | skipped _ => exact .nil
  | error => exact .nil

/-- A unit is lowered to a module with its atoms. -/
theorem lowered_unit {u : Syntax.DesignUnit} (hserved : ∀ v ∈ u.visits, Served ctx names v)
    (hs : names.Extends s.names) :
    ∃ m t, (designUnit ctx u).run.run s = (.ok m, t) ∧
      AllLowered ctx t.names (u.atoms ctx) m.atoms := by
  obtain ⟨m, t, rs, hrun, hall, -, hinstances, -, ⟨bare, hbare, hname⟩⟩ := unit_becomes hserved hs
  refine ⟨m, t, hrun, ?_⟩
  have hitems : AllLowered ctx t.names (u.items.flatMap (Syntax.Item.atoms ctx))
      (rs.flatMap fun r => r.2.flatMap Design.Instance.atoms) :=
    .flatMap (hall.imp fun _ _ h => lowered_item h)
  rw [Design.Module.atoms, hname, hinstances, List.flatMap_assoc]
  exact .cons (.name hbare) hitems

/-- The units of a file are lowered one after the other. -/
theorem lowered_sourceText {text : Syntax.SourceText}
    (hserved : ∀ u ∈ text.units, ∀ v ∈ u.visits, Served ctx names v) (hs : names.Extends s.names) :
    ∃ ms t, (sourceText ctx text).run.run s = (.ok ms, t) ∧
      AllLowered ctx t.names (text.atoms ctx) (ms.flatMap Design.Module.atoms) := by
  have hstep : ∀ u ∈ text.units, ∀ v, names.Extends v.names → ∃ m w,
      (designUnit ctx u).run.run v = (.ok m, w) ∧ names.Extends w.names ∧
        v.names.Extends w.names ∧ AllLowered ctx w.names (u.atoms ctx) m.atoms := by
    intro u hu v hv
    obtain ⟨m, w, hrun, hlowered⟩ := lowered_unit (hserved u hu) hv
    have hgrows := Task.extends_of_run hrun
    exact ⟨m, w, hrun, hv.trans hgrows, hgrows, hlowered⟩
  obtain ⟨ms, t, hrun, -, hsteps⟩ := SessionM.mapM_run hstep hs
  refine ⟨ms, t, hrun, .flatMap (hsteps.forall₂ (fun _ _ _ _ h => h.1) ?_)⟩
  intro u _ v m w _ h hlater
  exact h.2.mono hlater

end Instances

end Lowering

end Netlist
