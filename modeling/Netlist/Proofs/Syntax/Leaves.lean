import Netlist.Proofs.Syntax.Alike

/-!
The leaves of a statement that recovery could have made up: its names, and its nodes for what is no
expression. They are listed wherever they stand, in parameter values, dimensions, connections and
attributes. A statement that is like another over a frame has only leaves the frame allows.
-/
namespace Netlist.Syntax

open List (Forall₂)

inductive Leaf where
  | name (i : Identifier)
  /-- A node for something that is no expression. -/
  | flaw (span : Span)

mutual

def Expr.leaves : Expr → List Leaf
  | .identifier name => [.name name]
  | .hierarchical parts _ => parts.map .name
  | .scoped scope name _ => [.name scope, .name name]
  | .literal _ => []
  | .realLiteral _ => []
  | .stringLiteral _ => []
  | .index base place _ => base.leaves ++ place.leaves
  | .rangeSelect base msb lsb _ => base.leaves ++ (msb.leaves ++ lsb.leaves)
  | .partSelect base place _ width _ => base.leaves ++ (place.leaves ++ width.leaves)
  | .concat elements _ => Expr.leavesOf elements
  | .replicate count elements _ => count.leaves ++ Expr.leavesOf elements
  | .unary _ operand _ => operand.leaves
  | .binary left _ right _ => left.leaves ++ right.leaves
  | .ternary condition thenExpr elseExpr _ =>
    condition.leaves ++ (thenExpr.leaves ++ elseExpr.leaves)
  | .call callee args _ => callee.leaves ++ Expr.leavesOf args
  | .systemCall name args _ => .name name :: Expr.leavesOf args
  | .paren inner _ => inner.leaves
  | .error span => [.flaw span]

def Expr.leavesOf : List Expr → List Leaf
  | [] => []
  | e :: es => e.leaves ++ Expr.leavesOf es

end

def Range.leaves (r : Range) : List Leaf := r.msb.leaves ++ r.lsb.leaves

def ParamValue.leaves : ParamValue → List Leaf
  | .expr value => value.leaves
  | .dataType type => type.packed.flatMap Range.leaves

def NamedParam.leaves (p : NamedParam) : List Leaf :=
  .name p.name :: p.value.toList.flatMap ParamValue.leaves

def ParamList.leaves : ParamList → List Leaf
  | .ordered values => values.flatMap ParamValue.leaves
  | .named items => items.flatMap NamedParam.leaves

def ParamClause.leaves (p : ParamClause) : List Leaf := p.list.toList.flatMap ParamList.leaves

def Dimension.leaves : Dimension → List Leaf
  | .range bounds => bounds.leaves
  | .size count _ => count.leaves

def InstanceName.leaves (n : InstanceName) : List Leaf :=
  .name n.name :: n.dimensions.flatMap Dimension.leaves

def AttributeSpec.leaves (a : AttributeSpec) : List Leaf :=
  .name a.name :: a.value.toList.flatMap Expr.leaves

def Attribute.leaves (a : Attribute) : List Leaf := a.specs.flatMap AttributeSpec.leaves

def OrderedPort.leaves (p : OrderedPort) : List Leaf :=
  p.attributes.flatMap Attribute.leaves ++ p.expr.toList.flatMap Expr.leaves

def PortTarget.leaves : PortTarget → List Leaf
  | .wildcard => []
  | .port name actual => .name name :: actual.toList.flatMap Expr.leaves

def NamedPort.leaves (p : NamedPort) : List Leaf :=
  p.attributes.flatMap Attribute.leaves ++ p.target.leaves

def PortList.leaves : PortList → List Leaf
  | .ordered ports => ports.flatMap OrderedPort.leaves
  | .named ports => ports.flatMap NamedPort.leaves

def Instance.leaves (i : Instance) : List Leaf := i.name.leaves ++ i.connections.leaves

def Instantiation.leaves (s : Instantiation) : List Leaf :=
  .name s.module ::
    (s.params.toList.flatMap ParamClause.leaves ++ s.instances.flatMap Instance.leaves)

variable {F : Frame}

/-- A leaf that the frame allows. -/
def Leaf.Fits (F : Frame) : Leaf → Prop
  | .name i => ∃ i', i.Alike F i'
  | .flaw s => ∃ s', F.flaw s s'

/-- All leaves are allowed. -/
def AllFit (F : Frame) (ls : List Leaf) : Prop := ∀ l ∈ ls, l.Fits F

@[simp] theorem allFit_nil : AllFit F [] := nofun

@[simp] theorem allFit_cons {l : Leaf} {ls : List Leaf} :
    AllFit F (l :: ls) ↔ l.Fits F ∧ AllFit F ls := List.forall_mem_cons

@[simp] theorem allFit_append {a b : List Leaf} :
    AllFit F (a ++ b) ↔ AllFit F a ∧ AllFit F b := List.forall_mem_append

section Parts

variable {α β : Type} {R : α → α → Prop} {P : β → Prop} {f : α → List β}

/-- What is said of the parts of each item holds of all their parts. -/
theorem forall_flatMap {as as' : List α} (has : Forall₂ R as as')
    (h : ∀ a a', R a a' → ∀ b ∈ f a, P b) : ∀ b ∈ as.flatMap f, P b := by
  induction has with
  | nil => exact List.forall_mem_nil _
  | cons ha _ ih =>
    rw [List.flatMap_cons, List.forall_mem_append]
    exact ⟨h _ _ ha, ih⟩

theorem forall_option {o o' : Option α} (ho : Option.Rel R o o')
    (h : ∀ a a', R a a' → ∀ b ∈ f a, P b) : ∀ b ∈ o.toList.flatMap f, P b := by
  cases ho with
  | none => exact List.forall_mem_nil _
  | some ha => exact forall_flatMap (.cons ha .nil) h

end Parts

theorem allFit_name {i i' : Identifier} (h : i.Alike F i') : (Leaf.name i).Fits F := ⟨i', h⟩

private theorem allFit_names {is is' : List Identifier} (h : Forall₂ (Identifier.Alike F) is is') :
    AllFit F (is.map .name) := by
  induction h with
  | nil => exact allFit_nil
  | cons hi _ ih => exact allFit_cons.mpr ⟨allFit_name hi, ih⟩

mutual

theorem allFit_expr : (e : Expr) → {e' : Expr} → e.Alike F e' → AllFit F e.leaves
  | .identifier _, _, .identifier hi => by
    simp only [Expr.leaves, allFit_cons, allFit_nil, and_true]
    exact allFit_name hi
  | .hierarchical _ _, _, .hierarchical hfirst hmore _ => by
    simp only [Expr.leaves]
    exact allFit_names (.cons hfirst hmore)
  | .scoped _ _ _, _, .scoped houter hinner _ => by
    simp only [Expr.leaves, allFit_cons, allFit_nil, and_true]
    exact ⟨allFit_name houter, allFit_name hinner⟩
  | .literal _, _, _ => by simp only [Expr.leaves, allFit_nil]
  | .realLiteral _, _, _ => by simp only [Expr.leaves, allFit_nil]
  | .stringLiteral _, _, _ => by simp only [Expr.leaves, allFit_nil]
  | .index a b _, _, .index ha hb _ => by
    simp only [Expr.leaves, allFit_append]
    exact ⟨allFit_expr a ha, allFit_expr b hb⟩
  | .rangeSelect a b c _, _, .rangeSelect ha hb hc _ => by
    simp only [Expr.leaves, allFit_append]
    exact ⟨allFit_expr a ha, allFit_expr b hb, allFit_expr c hc⟩
  | .partSelect a b _ c _, _, .partSelect ha hb hc _ => by
    simp only [Expr.leaves, allFit_append]
    exact ⟨allFit_expr a ha, allFit_expr b hb, allFit_expr c hc⟩
  | .concat es _, _, .concat hes _ => by
    simp only [Expr.leaves]
    exact allFit_exprs es hes
  | .replicate n es _, _, .replicate hn hes _ => by
    simp only [Expr.leaves, allFit_append]
    exact ⟨allFit_expr n hn, allFit_exprs es hes⟩
  | .unary _ a _, _, .unary ha _ => by
    simp only [Expr.leaves]
    exact allFit_expr a ha
  | .binary a _ b _, _, .binary ha hb _ => by
    simp only [Expr.leaves, allFit_append]
    exact ⟨allFit_expr a ha, allFit_expr b hb⟩
  | .ternary a b c _, _, .ternary ha hb hc _ => by
    simp only [Expr.leaves, allFit_append]
    exact ⟨allFit_expr a ha, allFit_expr b hb, allFit_expr c hc⟩
  | .call f es _, _, .call hf hes _ => by
    simp only [Expr.leaves, allFit_append]
    exact ⟨allFit_expr f hf, allFit_exprs es hes⟩
  | .systemCall _ es _, _, .systemCall hi hes _ => by
    simp only [Expr.leaves, allFit_cons]
    exact ⟨allFit_name (hi.alike (.inr rfl)), allFit_exprs es hes⟩
  | .paren a _, _, .paren ha _ => by
    simp only [Expr.leaves]
    exact allFit_expr a ha
  | .error _, _, .error hflaw _ => by
    simp only [Expr.leaves, allFit_cons, allFit_nil, and_true]
    exact ⟨_, hflaw⟩

theorem allFit_exprs : (es : List Expr) → {es' : List Expr} → Forall₂ (Expr.Alike F) es es' →
    AllFit F (Expr.leavesOf es)
  | [], _, .nil => by simp only [Expr.leavesOf, allFit_nil]
  | e :: es, _, .cons he hes => by
    simp only [Expr.leavesOf, allFit_append]
    exact ⟨allFit_expr e he, allFit_exprs es hes⟩

end

theorem allFit_range {r r' : Range} (h : r.Alike F r') : AllFit F r.leaves :=
  allFit_append.mpr ⟨allFit_expr _ h.msb, allFit_expr _ h.lsb⟩

theorem allFit_paramValue {v v' : ParamValue} (h : v.Alike F v') : AllFit F v.leaves := by
  cases h with
  | expr he => exact allFit_expr _ he
  | dataType ht => exact forall_flatMap ht.packed fun _ _ h => allFit_range h

theorem allFit_namedParam {p p' : NamedParam} (h : p.Alike F p') : AllFit F p.leaves :=
  allFit_cons.mpr ⟨allFit_name h.name, forall_option h.value fun _ _ h => allFit_paramValue h⟩

theorem allFit_paramList {l l' : ParamList} (h : l.Alike F l') : AllFit F l.leaves := by
  cases h with
  | ordered hvs => exact forall_flatMap hvs fun _ _ h => allFit_paramValue h
  | named hps => exact forall_flatMap hps fun _ _ h => allFit_namedParam h

theorem allFit_paramClause {p p' : ParamClause} (h : p.Alike F p') : AllFit F p.leaves :=
  forall_option h.list fun _ _ h => allFit_paramList h

theorem allFit_dimension {d d' : Dimension} (h : d.Alike F d') : AllFit F d.leaves := by
  cases h with
  | range hr => exact allFit_range hr
  | size he _ => exact allFit_expr _ he

theorem allFit_attribute {a a' : Attribute} (h : a.Alike F a') : AllFit F a.leaves := by
  refine forall_flatMap h.specs fun spec spec' hspec => ?_
  exact allFit_cons.mpr
    ⟨allFit_name hspec.name, forall_option hspec.value fun _ _ h => allFit_expr _ h⟩

theorem allFit_orderedPort {p p' : OrderedPort} (h : p.Alike F p') : AllFit F p.leaves :=
  allFit_append.mpr ⟨forall_flatMap h.attributes fun _ _ h => allFit_attribute h,
    forall_option h.expr fun _ _ h => allFit_expr _ h⟩

theorem allFit_namedPort {p p' : NamedPort} (h : p.Alike F p') : AllFit F p.leaves := by
  have htarget := h.target
  refine allFit_append.mpr ⟨forall_flatMap h.attributes fun _ _ h => allFit_attribute h, ?_⟩
  generalize p.target = target, p'.target = target' at htarget
  cases htarget with
  | wildcard => exact allFit_nil
  | port hname hactual =>
    exact allFit_cons.mpr ⟨allFit_name hname, forall_option hactual fun _ _ h => allFit_expr _ h⟩

theorem allFit_portList {l l' : PortList} (h : l.Alike F l') : AllFit F l.leaves := by
  cases h with
  | ordered hps => exact forall_flatMap hps fun _ _ h => allFit_orderedPort h
  | named hps => exact forall_flatMap hps fun _ _ h => allFit_namedPort h

theorem allFit_instance {i i' : Instance} (h : i.Alike F i') : AllFit F i.leaves :=
  allFit_append.mpr ⟨allFit_cons.mpr ⟨allFit_name h.name.name,
    forall_flatMap h.name.dimensions fun _ _ h => allFit_dimension h⟩,
    allFit_portList h.connections⟩

/-- Every leaf of a statement is one the frame allows. -/
theorem allFit_instantiation {s s' : Instantiation} (h : s.Alike F s') : AllFit F s.leaves :=
  allFit_cons.mpr ⟨allFit_name h.module, allFit_append.mpr
    ⟨forall_option h.params fun _ _ h => allFit_paramClause h,
      forall_flatMap h.instances fun _ _ h => allFit_instance h⟩⟩

end Netlist.Syntax
