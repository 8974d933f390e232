import Netlist.Proofs.Lowering.Returns
import Netlist.Proofs.Session.Pairing

/-!
What lowering does with a tree, in the order of the source: the names it looks up, the texts it
reads, the notices it gives and the faults it meets. The list is read off the tree alone, made by
the parser or not. If the names and texts are there, lowering follows the list up to the first
fault, in every session: it emits the notices before it, and ends with it.
-/
namespace Netlist

section Work

variable {α β : Type} {names : Names}

/-- Work that asks for what is there, and emits these diagnostics. -/
def SessionM.Emits (names : Names) (x : SessionM α) (ds : List Diagnostic) : Prop :=
  ∀ s, names.Extends s.names →
    ∃ a t, x.run.run s = (.ok a, t) ∧ x.run.Hits s ∧ x.run.emitted s = ds

namespace SessionM.Emits

variable {x : SessionM α} {f : α → SessionM β} {ds es : List Diagnostic}

theorem pure (a : α) : Emits names (Pure.pure a) [] := fun s _ => ⟨a, s, rfl, trivial, rfl⟩

theorem bind (hx : Emits names x ds) (hf : ∀ a, Emits names (f a) es) :
    Emits names (x >>= f) (ds ++ es) := by
  intro s hs
  obtain ⟨a, t, hrun, hhits, hemits⟩ := hx s hs
  have hgrows : s.names.Extends t.names := Task.extends_of_run hrun
  obtain ⟨b, u, hrun', hhits', hemits'⟩ := hf a t (hs.trans hgrows)
  refine ⟨b, u, (SessionM.run_bind hrun).trans hrun', SessionM.hits_bind hrun hhits hhits', ?_⟩
  rw [SessionM.emitted_bind hrun, hemits, hemits']

theorem lift (y : Task α) (ds : List Diagnostic) (hhits : ∀ s, y.Hits s)
    (hemits : ∀ s, y.emitted s = ds) : Emits names (ExceptT.lift y) ds :=
  fun s _ => ⟨_, _, rfl, ⟨hhits s, trivial⟩, (SessionM.emitted_lift y s).trans (hemits s)⟩

end SessionM.Emits

end Work

namespace Syntax

open Lowering (Fault)

/-- What lowering comes across. -/
inductive Visit where
  | name (index : Nat)
  | text (span : Span)
  /-- A text that has to be a number. -/
  | number (span : Span)
  /-- Something that is left out. -/
  | omission (label : String) (span : Span)
  | flaw (fault : Fault)

def Identifier.visits (i : Identifier) : List Visit := [.name i.name]

mutual

def Expr.visits : Expr → List Visit
  | .identifier name => name.visits
  | .hierarchical [] span => [.flaw (.malformed .hierarchicalName span)]
  | .hierarchical (first :: parts) _ => first.visits ++ parts.flatMap Identifier.visits
  | .scoped scope name _ => scope.visits ++ name.visits
  | .literal span => [.number span]
  | .realLiteral span => [.text span]
  | .stringLiteral span => [.text span]
  | .index base place _ => base.visits ++ place.visits
  | .rangeSelect base msb lsb _ => base.visits ++ (msb.visits ++ lsb.visits)
  | .partSelect base place _ width _ => base.visits ++ (place.visits ++ width.visits)
  | .concat elements _ => Expr.visitsOf elements
  | .replicate count elements _ => count.visits ++ Expr.visitsOf elements
  | .unary _ operand _ => operand.visits
  | .binary left _ right _ => left.visits ++ right.visits
  | .ternary condition thenExpr elseExpr _ =>
    condition.visits ++ (thenExpr.visits ++ elseExpr.visits)
  | .call callee args _ => callee.visits ++ Expr.visitsOf args
  | .systemCall _ args _ => Expr.visitsOf args
  | .paren inner _ => inner.visits
  | .error span => [.flaw (.malformed .expression span)]

def Expr.visitsOf : List Expr → List Visit
  | [] => []
  | e :: es => e.visits ++ Expr.visitsOf es

end

def Range.visits (r : Range) : List Visit := r.msb.visits ++ r.lsb.visits

def DataType.visits (t : DataType) : List Visit :=
  t.signing.toList.map (fun (_, span) => .omission "signing of a data type parameter value" span) ++
    t.packed.flatMap Range.visits

def ParamValue.visits : ParamValue → List Visit
  | .expr value => value.visits
  | .dataType type => type.visits

def NamedParam.visits (p : NamedParam) : List Visit :=
  p.name.visits ++ p.value.toList.flatMap ParamValue.visits

def ParamList.visits : ParamList → List Visit
  | .ordered values => values.flatMap ParamValue.visits
  | .named items => items.flatMap NamedParam.visits

def ParamClause.visits (p : ParamClause) : List Visit := p.list.toList.flatMap ParamList.visits

def Dimension.visits : Dimension → List Visit
  | .range bounds => bounds.visits
  | .size count _ => count.visits

/-- What an attribute says is not looked at. -/
def Attribute.visits (form : String) (a : Attribute) : List Visit :=
  [.omission ("attribute instance on " ++ form ++ " port connection") a.span]

def OrderedPort.visits (p : OrderedPort) : List Visit :=
  p.attributes.flatMap (Attribute.visits "ordered") ++ p.expr.toList.flatMap Expr.visits

def PortTarget.visits : PortTarget → List Visit
  | .wildcard => []
  | .port name actual => name.visits ++ actual.toList.flatMap Expr.visits

def NamedPort.visits (p : NamedPort) : List Visit :=
  p.attributes.flatMap (Attribute.visits "named") ++ p.target.visits

def PortList.visits : PortList → List Visit
  | .ordered ports => ports.flatMap OrderedPort.visits
  | .named ports => ports.flatMap NamedPort.visits

/-- The connections come before the name, and the name of the module last. -/
def Instance.visits (module : Identifier) (i : Instance) : List Visit :=
  i.connections.visits ++
    (i.name.name.visits ++ (i.name.dimensions.flatMap Dimension.visits ++ module.visits))

def Instantiation.visits (s : Instantiation) : List Visit :=
  if s.instances.isEmpty then [.flaw (.noInstances s.span)]
  else s.params.toList.flatMap ParamClause.visits ++
    s.instances.flatMap (Instance.visits s.module)

end Syntax

namespace Lowering

open Design (Expr)
open Syntax (Visit)

variable {α β : Type} {ctx : Context} {names : Names}

/-- The names and texts that are asked for are there. -/
def Served (ctx : Context) (names : Names) : Visit → Prop
  | .name index => ∃ text, names.resolve? index = some text
  | .text span => ∃ text, ctx.sources.snippet span = .ok text
  | .number span => ∃ text, ctx.sources.snippet span = .ok text
  | .omission _ _ => True
  | .flaw _ => True

def faultAt? (ctx : Context) : Visit → Option Fault
  | .number span =>
    match ctx.sources.snippet span with
    | .ok text =>
      if (number? text.toList).isNone then some (.malformed .numberLiteral span) else none
    | .error _ => none
  | .flaw fault => some fault
  | _ => none

def noticeAt? (ctx : Context) : Visit → Option Diagnostic
  | .omission label span => some (noticeOf ctx.level label span)
  | _ => none

def firstFault? (ctx : Context) (vs : List Visit) : Option Fault := vs.findSome? (faultAt? ctx)

/-- The notices before the first fault. -/
def noticesOf (ctx : Context) (vs : List Visit) : List Diagnostic :=
  (vs.takeWhile fun v => (faultAt? ctx v).isNone).filterMap (noticeAt? ctx)

@[simp] theorem firstFault?_append (vs ws : List Visit) :
    firstFault? ctx (vs ++ ws) = (firstFault? ctx vs).or (firstFault? ctx ws) :=
  List.findSome?_append

theorem noticesOf_append (vs ws : List Visit) :
    noticesOf ctx (vs ++ ws) =
      noticesOf ctx vs ++ if (firstFault? ctx vs).isNone then noticesOf ctx ws else [] := by
  induction vs with
  | nil => simp [noticesOf, firstFault?]
  | cons v vs ih =>
    cases hv : faultAt? ctx v with
    | some f => simp [noticesOf, firstFault?, hv]
    | none =>
      simp only [noticesOf, firstFault?] at ih
      cases hnotice : noticeAt? ctx v <;> simp [noticesOf, firstFault?, hv, hnotice, ih]

/-- The fault a lowering ended with. -/
def faultOf? : Except Fault α → Option Fault
  | .ok _ => none
  | .error f => some f

/-- A lowering that does what the list says, up to its first fault. -/
def Follows (ctx : Context) (names : Names) (x : LowerM α) (vs : List Visit) : Prop :=
  ∀ s, names.Extends s.names →
    ∃ r t, x.run.run.run s = (.ok r, t) ∧ x.run.run.Hits s ∧
      faultOf? r = firstFault? ctx vs ∧ x.run.run.emitted s = noticesOf ctx vs

namespace Follows

variable {x : LowerM α} {f : α → LowerM β} {vs ws : List Visit}

theorem pure (a : α) : Follows ctx names (Pure.pure a) [] :=
  fun s _ => ⟨.ok a, s, rfl, trivial, rfl, rfl⟩

theorem fail (fault : Fault) : Follows ctx names (Lowering.fail fault : LowerM α) [.flaw fault] :=
  fun s _ => ⟨.error fault, s, rfl, trivial, rfl, rfl⟩

/-- What follows a fault is not looked at. -/
theorem bind (hx : Follows ctx names x vs) (hf : ∀ a, Follows ctx names (f a) ws) :
    Follows ctx names (x >>= f) (vs ++ ws) := by
  intro s hs
  obtain ⟨r, t, hrun, hhits, hfault, hemits⟩ := hx s hs
  have hgrows : s.names.Extends t.names := Task.extends_of_run hrun
  have hboth {r' : Except Fault β} {u : Session}
      (hrest : (ExceptT.bindCont f r : SessionM _).run.run t = (.ok r', u)) :
      (x >>= f).run.run.run s = (.ok r', u) := (SessionM.run_bind hrun).trans hrest
  rw [firstFault?_append, noticesOf_append, ← hfault]
  cases r with
  | error fault =>
    refine ⟨.error fault, t, hboth rfl, ?_, ?_, ?_⟩
    · exact SessionM.hits_bind (x := x.run) hrun hhits trivial
    · simp [faultOf?]
    · have hnothing := SessionM.emitted_bind (x := x.run) (f := ExceptT.bindCont f) hrun
      refine hnothing.trans ?_
      rw [hemits]
      rfl
  | ok a =>
    obtain ⟨r', u, hrun', hhits', hfault', hemits'⟩ := hf a t (hs.trans hgrows)
    refine ⟨r', u, hboth hrun', ?_, ?_, ?_⟩
    · exact SessionM.hits_bind (x := x.run) hrun hhits hhits'
    · simpa [faultOf?] using hfault'
    · have hmore := SessionM.emitted_bind (x := x.run) (f := ExceptT.bindCont f) hrun
      refine hmore.trans ?_
      rw [hemits]
      exact congrArg _ hemits'

theorem lift {x : SessionM α} {ds : List Diagnostic} (hx : SessionM.Emits names x ds)
    (hquiet : firstFault? ctx vs = none) (hds : noticesOf ctx vs = ds) :
    Follows ctx names (ExceptT.lift x) vs := by
  intro s hs
  obtain ⟨a, t, hrun, hhits, hemits⟩ := hx s hs
  refine ⟨.ok a, t, (SessionM.run_bind hrun).trans rfl, ?_, hquiet.symm, ?_⟩
  · exact SessionM.hits_bind hrun hhits trivial
  · refine (SessionM.emitted_bind hrun).trans ?_
    rw [hemits, hds]
    exact List.append_nil ds

theorem map {g : α → β} (hx : Follows ctx names x vs) :
    Follows ctx names (x >>= fun a => Pure.pure (g a)) vs := by
  have hbind := hx.bind fun a => pure (g a)
  rwa [List.append_nil] at hbind

/-- What is known beforehand is handed on. -/
theorem bindPure {a : α} (hf : Follows ctx names (f a) vs) :
    Follows ctx names (ExceptT.lift (Pure.pure a : SessionM α) >>= f) vs := by
  intro s hs
  obtain ⟨r, t, hrun, hhits, hfault, hemits⟩ := hf s hs
  exact ⟨r, t, hrun, ⟨⟨trivial, trivial⟩, hhits⟩, hfault, hemits⟩

theorem mapM {γ : Type} {f : γ → LowerM α} {visits : γ → List Visit} {cs : List γ}
    (h : ∀ c ∈ cs, Follows ctx names (f c) (visits c)) :
    Follows ctx names (cs.mapM f) (cs.flatMap visits) := by
  have hloop (done : List α) :
      Follows ctx names (List.mapM.loop f cs done) (cs.flatMap visits) := by
    induction cs generalizing done with
    | nil => exact pure _
    | cons c cs ih =>
      obtain ⟨hfirst, hrest⟩ := List.forall_mem_cons.mp h
      exact hfirst.bind fun a => ih hrest (a :: done)
  exact hloop []

end Follows

section Trees

theorem emits_notice (label : String) (span : Span) :
    SessionM.Emits names (notice ctx label span) [noticeOf ctx.level label span] :=
  .lift (.call (.emit _)) _ (fun _ => trivial) fun _ => rfl

theorem emits_intern (text : String) : SessionM.Emits names (intern text) [] :=
  .lift (.call (.intern text)) [] (fun _ => trivial) fun _ => rfl

theorem snippet_eq_pure {span : Span} {text : String}
    (h : ctx.sources.snippet span = .ok text) : snippet ctx span = pure text := by
  unfold snippet
  rw [h]
  rfl

theorem emits_snippet {span : Span} (h : Served ctx names (.text span)) :
    SessionM.Emits names (snippet ctx span) [] := by
  obtain ⟨text, htext⟩ := h
  rw [snippet_eq_pure htext]
  exact .pure text

theorem emits_identifier {i : Syntax.Identifier} (h : ∀ v ∈ i.visits, Served ctx names v) :
    SessionM.Emits names (identifier i) [] := by
  obtain ⟨text, htext⟩ := List.forall_mem_singleton.mp h
  have hresolve : SessionM.Emits names (resolve i.name) [] := by
    intro s hs
    have hfound : s.names.resolve? i.name = some text := hs.resolve? htext
    refine ⟨text, s, ?_, ⟨text, hfound⟩, rfl⟩
    show (s.names.resolve i.name, s) = _
    rw [Names.resolve_eq_ok hfound]
  refine hresolve.bind fun text => ?_
  split
  · exact (emits_intern _).bind fun _ => .pure _
  · exact .pure _

theorem follows_identifier {i : Syntax.Identifier} (h : ∀ v ∈ i.visits, Served ctx names v) :
    Follows ctx names (ExceptT.lift (identifier i)) i.visits :=
  .lift (emits_identifier h) rfl rfl

/-- A text that is no number is the fault of a literal. -/
theorem follows_numberLiteral {span : Span} (h : Served ctx names (.number span)) :
    Follows ctx names (numberLiteral ctx span) [.number span] := by
  obtain ⟨text, htext⟩ := h
  unfold numberLiteral
  rw [snippet_eq_pure htext]
  refine .bindPure fun s _ => ?_
  have hsilent : noticesOf ctx [.number span] = [] := by
    cases h : faultAt? ctx (.number span) <;> simp [noticesOf, noticeAt?, h]
  rw [hsilent]
  cases hvalue : number? text.toList with
  | some value =>
    refine ⟨.ok (.literal value), s, rfl, trivial, ?_, rfl⟩
    simp [faultOf?, firstFault?, faultAt?, htext, hvalue]
  | none =>
    refine ⟨.error (.malformed .numberLiteral span), s, rfl, trivial, ?_, rfl⟩
    simp [faultOf?, firstFault?, faultAt?, htext, hvalue]

theorem emits_members {parts : List Syntax.Identifier} (base : Expr)
    (h : ∀ v ∈ parts.flatMap Syntax.Identifier.visits, Served ctx names v) :
    SessionM.Emits names (members base parts) [] := by
  induction parts generalizing base with
  | nil => exact .pure base
  | cons part parts ih =>
    obtain ⟨hpart, hparts⟩ := List.forall_mem_append.mp h
    exact (emits_identifier hpart).bind fun name => ih _ hparts

theorem firstFault?_names (parts : List Syntax.Identifier) :
    firstFault? ctx (parts.flatMap Syntax.Identifier.visits) = none := by
  induction parts with
  | nil => rfl
  | cons part parts ih => exact ih

theorem noticesOf_names (parts : List Syntax.Identifier) :
    noticesOf ctx (parts.flatMap Syntax.Identifier.visits) = [] := by
  induction parts with
  | nil => rfl
  | cons part parts ih => exact ih

mutual

theorem follows_expression : (e : Syntax.Expr) → (∀ v ∈ e.visits, Served ctx names v) →
    Follows ctx names (expression ctx e) e.visits
  | .identifier _, h => by
    unfold expression
    exact follows_identifier h
  | .hierarchical [] _, _ => by
    unfold expression
    exact .fail _
  | .hierarchical (first :: parts) _, h => by
    unfold expression
    obtain ⟨hfirst, hparts⟩ := List.forall_mem_append.mp h
    refine (follows_identifier hfirst).bind fun base => ?_
    exact .lift (emits_members base hparts) (firstFault?_names parts) (noticesOf_names parts)
  | .scoped scope name _, h => by
    unfold expression
    obtain ⟨hscope, hname⟩ := List.forall_mem_append.mp h
    refine (follows_identifier hscope).bind fun outer => ?_
    exact (follows_identifier hname).map
  | .literal _, h => by
    unfold expression
    exact follows_numberLiteral (List.forall_mem_singleton.mp h)
  | .realLiteral _, h => by
    unfold expression
    have htext := emits_snippet (List.forall_mem_singleton.mp h)
    exact .lift (htext.bind fun _ => .pure _) rfl rfl
  | .stringLiteral _, h => by
    unfold expression
    have htext := emits_snippet (List.forall_mem_singleton.mp h)
    exact .lift (htext.bind fun _ => .pure _) rfl rfl
  | .index a b _, h => by
    unfold expression
    obtain ⟨ha, hb⟩ := List.forall_mem_append.mp h
    refine (follows_expression a ha).bind fun _ => ?_
    exact (follows_expression b hb).map
  | .rangeSelect a b c _, h => by
    unfold expression
    obtain ⟨ha, hbc⟩ := List.forall_mem_append.mp h
    obtain ⟨hb, hc⟩ := List.forall_mem_append.mp hbc
    refine (follows_expression a ha).bind fun _ => ?_
    refine (follows_expression b hb).bind fun _ => ?_
    exact (follows_expression c hc).map
  | .partSelect a b _ c _, h => by
    unfold expression
    obtain ⟨ha, hbc⟩ := List.forall_mem_append.mp h
    obtain ⟨hb, hc⟩ := List.forall_mem_append.mp hbc
    refine (follows_expression a ha).bind fun _ => ?_
    refine (follows_expression b hb).bind fun _ => ?_
    exact (follows_expression c hc).map
  | .concat es _, h => by
    unfold expression
    exact (follows_expressions es h).map
  | .replicate n es _, h => by
    unfold expression
    obtain ⟨hn, hes⟩ := List.forall_mem_append.mp h
    refine (follows_expression n hn).bind fun _ => ?_
    exact (follows_expressions es hes).map
  | .unary _ a _, h => by
    unfold expression
    exact (follows_expression a h).map
  | .binary a _ b _, h => by
    unfold expression
    obtain ⟨ha, hb⟩ := List.forall_mem_append.mp h
    refine (follows_expression a ha).bind fun _ => ?_
    exact (follows_expression b hb).map
  | .ternary a b c _, h => by
    unfold expression
    obtain ⟨ha, hbc⟩ := List.forall_mem_append.mp h
    obtain ⟨hb, hc⟩ := List.forall_mem_append.mp hbc
    refine (follows_expression a ha).bind fun _ => ?_
    refine (follows_expression b hb).bind fun _ => ?_
    exact (follows_expression c hc).map
  | .call f es _, h => by
    unfold expression
    obtain ⟨hf, hes⟩ := List.forall_mem_append.mp h
    refine (follows_expression f hf).bind fun _ => ?_
    exact (follows_expressions es hes).map
  | .systemCall _ es _, h => by
    unfold expression
    exact (follows_expressions es h).map
  | .paren a _, h => by
    unfold expression
    exact follows_expression a h
  | .error _, _ => by
    unfold expression
    exact .fail _

theorem follows_expressions : (es : List Syntax.Expr) →
    (∀ v ∈ Syntax.Expr.visitsOf es, Served ctx names v) →
    Follows ctx names (expressions ctx es) (Syntax.Expr.visitsOf es)
  | [], _ => by
    unfold expressions
    exact .pure []
  | e :: es, h => by
    unfold expressions
    obtain ⟨he, hes⟩ := List.forall_mem_append.mp h
    refine (follows_expression e he).bind fun _ => ?_
    exact (follows_expressions es hes).map

end

theorem follows_range {r : Syntax.Range} (h : ∀ v ∈ r.visits, Served ctx names v) :
    Follows ctx names (range ctx r) r.visits := by
  obtain ⟨hmsb, hlsb⟩ := List.forall_mem_append.mp h
  exact (follows_expression r.msb hmsb).bind fun _ => (follows_expression r.lsb hlsb).map

theorem follows_packed {rs : List Syntax.Range} (base : Expr)
    (h : ∀ v ∈ rs.flatMap Syntax.Range.visits, Served ctx names v) :
    Follows ctx names (packed ctx base rs) (rs.flatMap Syntax.Range.visits) := by
  induction rs generalizing base with
  | nil => exact .pure base
  | cons r rs ih =>
    obtain ⟨hr, hrs⟩ := List.forall_mem_append.mp h
    exact (follows_range hr).bind fun bounds => ih _ hrs

theorem follows_notice (label : String) (span : Span) :
    Follows ctx names (ExceptT.lift (notice ctx label span)) [.omission label span] :=
  .lift (emits_notice label span) rfl rfl

theorem follows_dataType {t : Syntax.DataType} (h : ∀ v ∈ t.visits, Served ctx names v) :
    Follows ctx names (dataType ctx t) t.visits := by
  obtain ⟨-, hpacked⟩ := List.forall_mem_append.mp h
  have hkeyword : Follows ctx names (ExceptT.lift (intern t.kind.text)) [] :=
    .lift (emits_intern t.kind.text) rfl rfl
  have hrest : Follows ctx names (do
      let keyword ← intern t.kind.text
      packed ctx (.id keyword) t.packed) (t.packed.flatMap Syntax.Range.visits) :=
    hkeyword.bind fun keyword => follows_packed (.id keyword) hpacked
  unfold dataType Syntax.DataType.visits
  cases t.signing with
  | none => exact hrest
  | some signing => exact (follows_notice _ _).bind fun _ => hrest

theorem follows_paramValue {p : Syntax.ParamValue} (h : ∀ v ∈ p.visits, Served ctx names v) :
    Follows ctx names (paramValue ctx p) p.visits := by
  cases p with
  | expr value => exact follows_expression value h
  | dataType type => exact follows_dataType h

theorem follows_dimension {d : Syntax.Dimension} (h : ∀ v ∈ d.visits, Served ctx names v) :
    Follows ctx names (dimension ctx d) d.visits := by
  cases d with
  | range bounds => exact follows_range h
  | size count _ => exact follows_expression count h

theorem follows_dimensions {ds : List Syntax.Dimension} (base : Expr)
    (h : ∀ v ∈ ds.flatMap Syntax.Dimension.visits, Served ctx names v) :
    Follows ctx names (dimensions ctx base ds) (ds.flatMap Syntax.Dimension.visits) := by
  induction ds generalizing base with
  | nil => exact .pure base
  | cons d ds ih =>
    obtain ⟨hd, hds⟩ := List.forall_mem_append.mp h
    exact (follows_dimension hd).bind fun bounds => ih _ hds

theorem follows_optional {lower : α → LowerM Expr} {visits : α → List Visit} {given : Option α}
    (hlower : ∀ a, (∀ v ∈ visits a, Served ctx names v) → Follows ctx names (lower a) (visits a))
    (h : ∀ v ∈ given.toList.flatMap visits, Served ctx names v) :
    Follows ctx names (optional lower given) (given.toList.flatMap visits) := by
  cases given with
  | none => exact .pure _
  | some a =>
    simp only [Option.toList_some, List.flatMap_singleton] at h ⊢
    exact hlower a h

theorem follows_namedParam {p : Syntax.NamedParam} (h : ∀ v ∈ p.visits, Served ctx names v) :
    Follows ctx names (namedParam ctx p) p.visits := by
  obtain ⟨hname, hvalue⟩ := List.forall_mem_append.mp h
  refine (follows_identifier hname).bind fun key => ?_
  exact (follows_optional (fun _ => follows_paramValue) hvalue).map

/-- A list is lowered as its items are. -/
theorem follows_items {γ : Type} {lower : γ → LowerM α} {visits : γ → List Visit} {cs : List γ}
    (hlower : ∀ c, (∀ v ∈ visits c, Served ctx names v) → Follows ctx names (lower c) (visits c))
    (h : ∀ v ∈ cs.flatMap visits, Served ctx names v) :
    Follows ctx names (cs.mapM lower) (cs.flatMap visits) :=
  .mapM fun c hc => hlower c fun v hv => h v (List.mem_flatMap.mpr ⟨c, hc, hv⟩)

theorem follows_paramList {l : Syntax.ParamList} (h : ∀ v ∈ l.visits, Served ctx names v) :
    Follows ctx names (paramList ctx l) l.visits := by
  cases l with
  | ordered values => exact follows_items (fun _ => follows_paramValue) h
  | named items => exact follows_items (fun _ => follows_namedParam) h

theorem emits_attributes (form : String) (attrs : List Syntax.Attribute) :
    SessionM.Emits names (attributes ctx form attrs)
      (noticesOf ctx (attrs.flatMap (Syntax.Attribute.visits form))) := by
  induction attrs with
  | nil => exact .pure ()
  | cons a attrs ih => exact (emits_notice _ _).bind fun _ => ih

theorem follows_attributes (form : String) (attrs : List Syntax.Attribute) :
    Follows ctx names (ExceptT.lift (attributes ctx form attrs))
      (attrs.flatMap (Syntax.Attribute.visits form)) := by
  refine .lift (emits_attributes form attrs) ?_ rfl
  induction attrs with
  | nil => rfl
  | cons a attrs ih => exact ih

theorem follows_orderedPort {p : Syntax.OrderedPort} (h : ∀ v ∈ p.visits, Served ctx names v) :
    Follows ctx names (orderedPort ctx p) p.visits := by
  obtain ⟨-, hexpr⟩ := List.forall_mem_append.mp h
  refine (follows_attributes _ _).bind fun _ => ?_
  exact follows_optional follows_expression hexpr

theorem follows_namedPort {p : Syntax.NamedPort} (h : ∀ v ∈ p.visits, Served ctx names v) :
    Follows ctx names (namedPort ctx p) p.visits := by
  obtain ⟨-, htarget⟩ := List.forall_mem_append.mp h
  refine (follows_attributes _ _).bind fun _ => ?_
  generalize p.target = target at htarget ⊢
  cases target with
  | wildcard => exact .pure _
  | port name actual =>
    obtain ⟨hname, hactual⟩ := List.forall_mem_append.mp htarget
    refine (follows_identifier hname).bind fun key => ?_
    exact (follows_optional follows_expression hactual).map

theorem follows_portList {l : Syntax.PortList} (h : ∀ v ∈ l.visits, Served ctx names v) :
    Follows ctx names (portList ctx l) l.visits := by
  cases l with
  | ordered ports => exact follows_items (fun _ => follows_orderedPort) h
  | named ports => exact follows_items (fun _ => follows_namedPort) h

theorem follows_generics {p : Option Syntax.ParamClause}
    (h : ∀ v ∈ p.toList.flatMap Syntax.ParamClause.visits, Served ctx names v) :
    Follows ctx names (generics ctx p) (p.toList.flatMap Syntax.ParamClause.visits) := by
  match p with
  | none => exact .pure _
  | some ⟨none, _⟩ => exact .pure _
  | some ⟨some list, _⟩ =>
    simp only [Syntax.ParamClause.visits, Option.toList_some, List.flatMap_singleton] at h ⊢
    exact follows_paramList h

theorem follows_hierarchicalInstance {module : Syntax.Identifier} {shared : List Expr}
    {i : Syntax.Instance} (h : ∀ v ∈ i.visits module, Served ctx names v) :
    Follows ctx names (hierarchicalInstance ctx module shared i) (i.visits module) := by
  obtain ⟨hports, h⟩ := List.forall_mem_append.mp h
  obtain ⟨hname, h⟩ := List.forall_mem_append.mp h
  obtain ⟨hdimensions, hmodule⟩ := List.forall_mem_append.mp h
  refine (follows_portList hports).bind fun ports => ?_
  refine (follows_identifier hname).bind fun base => ?_
  refine (follows_dimensions base hdimensions).bind fun name => ?_
  exact (follows_identifier hmodule).map

theorem follows_instantiation {stmt : Syntax.Instantiation}
    (h : ∀ v ∈ stmt.visits, Served ctx names v) :
    Follows ctx names (instantiation ctx stmt) stmt.visits := by
  unfold Syntax.Instantiation.visits at h ⊢
  unfold instantiation
  split at h
  next hempty =>
    rw [if_pos hempty, if_pos hempty]
    exact fun s _ => ⟨.error _, s, rfl, ⟨trivial, trivial⟩, rfl, rfl⟩
  next hne =>
    rw [if_neg hne, if_neg hne]
    obtain ⟨hparams, hinstances⟩ := List.forall_mem_append.mp h
    refine (follows_generics hparams).bind fun shared => ?_
    exact follows_items (fun _ => follows_hierarchicalInstance) hinstances

end Trees

end Lowering

end Netlist
