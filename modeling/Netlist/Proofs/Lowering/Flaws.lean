import Netlist.Proofs.Lowering.Visits

/-!
When an expression has a fault. Lowering ends with the fault of the first node, in the order of the
source, that is flawed: something that is no expression, a dotted name without parts, a literal
whose text is no number. Without one it gives a value, and parentheses play no part in it.
-/
namespace Netlist

namespace Syntax

open Lowering (Fault Context number?)

mutual

/-- The nodes of a tree in the order of the source, each before those below it. -/
def Expr.subtrees : Expr → List Expr
  | .identifier name => [.identifier name]
  | .hierarchical parts span => [.hierarchical parts span]
  | .scoped scope name span => [.scoped scope name span]
  | .literal span => [.literal span]
  | .realLiteral span => [.realLiteral span]
  | .stringLiteral span => [.stringLiteral span]
  | .index base place span => .index base place span :: (base.subtrees ++ place.subtrees)
  | .rangeSelect base msb lsb span =>
    .rangeSelect base msb lsb span :: (base.subtrees ++ (msb.subtrees ++ lsb.subtrees))
  | .partSelect base place ascending width span =>
    .partSelect base place ascending width span ::
      (base.subtrees ++ (place.subtrees ++ width.subtrees))
  | .concat elements span => .concat elements span :: Expr.subtreesOf elements
  | .replicate count elements span =>
    .replicate count elements span :: (count.subtrees ++ Expr.subtreesOf elements)
  | .unary op operand span => .unary op operand span :: operand.subtrees
  | .binary left op right span => .binary left op right span :: (left.subtrees ++ right.subtrees)
  | .ternary condition thenExpr elseExpr span =>
    .ternary condition thenExpr elseExpr span ::
      (condition.subtrees ++ (thenExpr.subtrees ++ elseExpr.subtrees))
  | .call callee args span => .call callee args span :: (callee.subtrees ++ Expr.subtreesOf args)
  | .systemCall name args span => .systemCall name args span :: Expr.subtreesOf args
  | .paren inner span => .paren inner span :: inner.subtrees
  | .error span => [.error span]

def Expr.subtreesOf : List Expr → List Expr
  | [] => []
  | e :: es => e.subtrees ++ Expr.subtreesOf es

end

mutual

/-- A tree without its parentheses. -/
def Expr.bare : Expr → Expr
  | .identifier name => .identifier name
  | .hierarchical parts span => .hierarchical parts span
  | .scoped scope name span => .scoped scope name span
  | .literal span => .literal span
  | .realLiteral span => .realLiteral span
  | .stringLiteral span => .stringLiteral span
  | .index base place span => .index base.bare place.bare span
  | .rangeSelect base msb lsb span => .rangeSelect base.bare msb.bare lsb.bare span
  | .partSelect base place ascending width span =>
    .partSelect base.bare place.bare ascending width.bare span
  | .concat elements span => .concat (Expr.bareOf elements) span
  | .replicate count elements span => .replicate count.bare (Expr.bareOf elements) span
  | .unary op operand span => .unary op operand.bare span
  | .binary left op right span => .binary left.bare op right.bare span
  | .ternary condition thenExpr elseExpr span =>
    .ternary condition.bare thenExpr.bare elseExpr.bare span
  | .call callee args span => .call callee.bare (Expr.bareOf args) span
  | .systemCall name args span => .systemCall name (Expr.bareOf args) span
  | .paren inner _ => inner.bare
  | .error span => .error span

def Expr.bareOf : List Expr → List Expr
  | [] => []
  | e :: es => e.bare :: Expr.bareOf es

end

/-- The text that a literal reads. -/
def Expr.text? : Expr → Option Span
  | .literal span => some span
  | .realLiteral span => some span
  | .stringLiteral span => some span
  | _ => none

/-- The names of a node itself that are looked up. The name of a system function is taken as it
is. -/
def Expr.ownNames : Expr → List Identifier
  | .identifier name => [name]
  | .hierarchical parts _ => parts
  | .scoped scope name _ => [scope, name]
  | _ => []

/-- The flaw of a node itself. -/
def Expr.flaw? (ctx : Context) : Expr → Option Fault
  | .error span => some (.malformed .expression span)
  | .hierarchical [] span => some (.malformed .hierarchicalName span)
  | .literal span =>
    match ctx.sources.snippet span with
    | .ok text =>
      if (number? text.toList).isNone then some (.malformed .numberLiteral span) else none
    | .error _ => none
  | _ => none

/-- What lowering comes across at a node itself. -/
def Expr.own : Expr → List Visit
  | .identifier name => name.visits
  | .hierarchical [] span => [.flaw (.malformed .hierarchicalName span)]
  | .hierarchical (first :: parts) _ => first.visits ++ parts.flatMap Identifier.visits
  | .scoped scope name _ => scope.visits ++ name.visits
  | .literal span => [.number span]
  | .realLiteral span => [.text span]
  | .stringLiteral span => [.text span]
  | .error span => [.flaw (.malformed .expression span)]
  | _ => []

mutual

/-- A tree is visited node by node. -/
theorem Expr.visits_eq : (e : Expr) → e.visits = e.subtrees.flatMap Expr.own
  | .identifier _ => by simp [visits, subtrees, own]
  | .hierarchical [] _ => by simp [visits, subtrees, own]
  | .hierarchical (_ :: _) _ => by simp [visits, subtrees, own]
  | .scoped _ _ _ => by simp [visits, subtrees, own]
  | .literal _ => by simp [visits, subtrees, own]
  | .realLiteral _ => by simp [visits, subtrees, own]
  | .stringLiteral _ => by simp [visits, subtrees, own]
  | .index a b _ => by simp [visits, subtrees, own, visits_eq a, visits_eq b]
  | .rangeSelect a b c _ => by
    simp [visits, subtrees, own, visits_eq a, visits_eq b, visits_eq c]
  | .partSelect a b _ c _ => by
    simp [visits, subtrees, own, visits_eq a, visits_eq b, visits_eq c]
  | .concat es _ => by simp [visits, subtrees, own, visitsOf_eq es]
  | .replicate n es _ => by simp [visits, subtrees, own, visits_eq n, visitsOf_eq es]
  | .unary _ a _ => by simp [visits, subtrees, own, visits_eq a]
  | .binary a _ b _ => by simp [visits, subtrees, own, visits_eq a, visits_eq b]
  | .ternary a b c _ => by simp [visits, subtrees, own, visits_eq a, visits_eq b, visits_eq c]
  | .call f es _ => by simp [visits, subtrees, own, visits_eq f, visitsOf_eq es]
  | .systemCall _ es _ => by simp [visits, subtrees, own, visitsOf_eq es]
  | .paren a _ => by simp [visits, subtrees, own, visits_eq a]
  | .error _ => by simp [visits, subtrees, own]

theorem Expr.visitsOf_eq : (es : List Expr) →
    Expr.visitsOf es = (Expr.subtreesOf es).flatMap Expr.own
  | [] => rfl
  | e :: es => by simp [visitsOf, subtreesOf, visits_eq e, visitsOf_eq es]

end

end Syntax

namespace Lowering

open Syntax (Visit)

variable {ctx : Context} {names : Names}

mutual

/-- Parentheses do not change what lowering does. -/
theorem expression_bare (ctx : Context) : (e : Syntax.Expr) → expression ctx e.bare = expression ctx e
  | .identifier _ => by unfold Syntax.Expr.bare; rfl
  | .hierarchical _ _ => by unfold Syntax.Expr.bare; rfl
  | .scoped _ _ _ => by unfold Syntax.Expr.bare; rfl
  | .literal _ => by unfold Syntax.Expr.bare; rfl
  | .realLiteral _ => by unfold Syntax.Expr.bare; rfl
  | .stringLiteral _ => by unfold Syntax.Expr.bare; rfl
  | .index a b _ => by
    simp only [Syntax.Expr.bare, expression, expression_bare ctx a, expression_bare ctx b]
  | .rangeSelect a b c _ => by
    simp only [Syntax.Expr.bare, expression, expression_bare ctx a, expression_bare ctx b,
      expression_bare ctx c]
  | .partSelect a b _ c _ => by
    simp only [Syntax.Expr.bare, expression, expression_bare ctx a, expression_bare ctx b,
      expression_bare ctx c]
  | .concat es _ => by simp only [Syntax.Expr.bare, expression, expressions_bareOf ctx es]
  | .replicate n es _ => by
    simp only [Syntax.Expr.bare, expression, expression_bare ctx n, expressions_bareOf ctx es]
  | .unary _ a _ => by simp only [Syntax.Expr.bare, expression, expression_bare ctx a]
  | .binary a _ b _ => by
    simp only [Syntax.Expr.bare, expression, expression_bare ctx a, expression_bare ctx b]
  | .ternary a b c _ => by
    simp only [Syntax.Expr.bare, expression, expression_bare ctx a, expression_bare ctx b,
      expression_bare ctx c]
  | .call f es _ => by
    simp only [Syntax.Expr.bare, expression, expression_bare ctx f, expressions_bareOf ctx es]
  | .systemCall _ es _ => by simp only [Syntax.Expr.bare, expression, expressions_bareOf ctx es]
  | .paren a _ => by simp only [Syntax.Expr.bare, expression, expression_bare ctx a]
  | .error _ => by unfold Syntax.Expr.bare; rfl

theorem expressions_bareOf (ctx : Context) :
    (es : List Syntax.Expr) → expressions ctx (Syntax.Expr.bareOf es) = expressions ctx es
  | [] => by unfold Syntax.Expr.bareOf; rfl
  | e :: es => by
    simp only [Syntax.Expr.bareOf, expressions, expression_bare ctx e, expressions_bareOf ctx es]

end

variable {α β : Type}

/-- A lowering that ends with the first fault of the list, if it ends and there is one. -/
def Faults (ctx : Context) (x : LowerM α) (vs : List Visit) : Prop :=
  ∀ s r t, x.run.run.run s = (.ok r, t) → faultOf? r = firstFault? ctx vs

namespace Faults

variable {x : LowerM α} {f : α → LowerM β} {vs ws : List Visit}

theorem pure (a : α) : Faults ctx (Pure.pure a) [] := by
  intro s r t hrun
  cases hrun
  rfl

theorem fail (fault : Fault) : Faults ctx (Lowering.fail fault : LowerM α) [.flaw fault] := by
  intro s r t hrun
  cases hrun
  rfl

/-- The first fault wins. -/
theorem bind (hx : Faults ctx x vs) (hf : ∀ a, Faults ctx (f a) ws) :
    Faults ctx (x >>= f) (vs ++ ws) := by
  intro s r u hrun
  obtain ⟨first, t, hfirst, hrest⟩ := SessionM.exists_of_bind (x := x.run) hrun
  rw [firstFault?_append, ← hx s first t hfirst]
  cases first with
  | error fault =>
    cases hrest
    rfl
  | ok a => exact hf a t r u hrest

theorem map {g : α → β} (hx : Faults ctx x vs) :
    Faults ctx (x >>= fun a => Pure.pure (g a)) vs := by
  have hbind := hx.bind fun a => pure (g a)
  rwa [List.append_nil] at hbind

/-- Work in the session has no faults. -/
theorem lift (x : SessionM α) (hquiet : firstFault? ctx vs = none) :
    Faults ctx (ExceptT.lift x) vs := by
  intro s r u hrun
  obtain ⟨a, t, -, hrest⟩ := SessionM.exists_of_bind (x := x) hrun
  cases hrest
  exact hquiet.symm

end Faults

theorem faults_numberLiteral (span : Span) :
    Faults ctx (numberLiteral ctx span) [.number span] := by
  intro s r t hrun
  unfold numberLiteral at hrun
  cases hsnippet : ctx.sources.snippet span with
  | error misuse =>
    unfold snippet at hrun
    rw [hsnippet] at hrun
    cases hrun
  | ok text =>
    have hserved : Served ctx s.names (.number span) := ⟨text, hsnippet⟩
    obtain ⟨r', t', hrun', -, hfault, -⟩ := follows_numberLiteral hserved s (.refl _)
    rw [numberLiteral, hrun] at hrun'
    cases hrun'
    exact hfault

mutual

theorem faults_expression (ctx : Context) : (e : Syntax.Expr) →
    Faults ctx (expression ctx e) e.visits
  | .identifier _ => by
    unfold expression
    exact .lift _ rfl
  | .hierarchical [] _ => by
    unfold expression
    exact .fail _
  | .hierarchical (_ :: parts) _ => by
    unfold expression
    exact Faults.bind (.lift _ rfl) fun _ => .lift _ (firstFault?_names parts)
  | .scoped _ _ _ => by
    unfold expression
    exact Faults.bind (.lift _ rfl) fun _ => Faults.map (.lift _ rfl)
  | .literal span => by
    unfold expression
    exact faults_numberLiteral span
  | .realLiteral _ => by
    unfold expression
    exact .lift _ rfl
  | .stringLiteral _ => by
    unfold expression
    exact .lift _ rfl
  | .index a b _ => by
    unfold expression
    exact (faults_expression ctx a).bind fun _ => (faults_expression ctx b).map
  | .rangeSelect a b c _ => by
    unfold expression
    refine (faults_expression ctx a).bind fun _ => ?_
    exact (faults_expression ctx b).bind fun _ => (faults_expression ctx c).map
  | .partSelect a b _ c _ => by
    unfold expression
    refine (faults_expression ctx a).bind fun _ => ?_
    exact (faults_expression ctx b).bind fun _ => (faults_expression ctx c).map
  | .concat es _ => by
    unfold expression
    exact (faults_expressions ctx es).map
  | .replicate n es _ => by
    unfold expression
    exact (faults_expression ctx n).bind fun _ => (faults_expressions ctx es).map
  | .unary _ a _ => by
    unfold expression
    exact (faults_expression ctx a).map
  | .binary a _ b _ => by
    unfold expression
    exact (faults_expression ctx a).bind fun _ => (faults_expression ctx b).map
  | .ternary a b c _ => by
    unfold expression
    refine (faults_expression ctx a).bind fun _ => ?_
    exact (faults_expression ctx b).bind fun _ => (faults_expression ctx c).map
  | .call f es _ => by
    unfold expression
    exact (faults_expression ctx f).bind fun _ => (faults_expressions ctx es).map
  | .systemCall _ es _ => by
    unfold expression
    exact (faults_expressions ctx es).map
  | .paren a _ => by
    unfold expression
    exact faults_expression ctx a
  | .error _ => by
    unfold expression
    exact .fail _

theorem faults_expressions (ctx : Context) : (es : List Syntax.Expr) →
    Faults ctx (expressions ctx es) (Syntax.Expr.visitsOf es)
  | [] => by
    unfold expressions
    exact .pure []
  | e :: es => by
    unfold expressions
    exact (faults_expression ctx e).bind fun _ => (faults_expressions ctx es).map

end

/-- What a node comes across has no fault but its own flaw. -/
theorem firstFault?_own (e : Syntax.Expr) : firstFault? ctx e.own = e.flaw? ctx := by
  cases e with
  | hierarchical parts span =>
    cases parts with
    | nil => rfl
    | cons first parts => exact firstFault?_names (first :: parts)
  | literal span =>
    unfold Syntax.Expr.own Syntax.Expr.flaw? firstFault?
    rw [List.findSome?_singleton]
    rfl
  | _ => rfl

theorem firstFault?_visits (e : Syntax.Expr) :
    firstFault? ctx e.visits = e.subtrees.findSome? (Syntax.Expr.flaw? ctx) := by
  rw [e.visits_eq]
  induction e.subtrees with
  | nil => rfl
  | cons node nodes ih =>
    rw [List.flatMap_cons, firstFault?_append, ih, firstFault?_own, List.findSome?_cons]
    cases node.flaw? ctx <;> rfl

theorem served_own {node : Syntax.Expr}
    (htext : ∀ span ∈ node.text?, ∃ text, ctx.sources.snippet span = .ok text)
    (hname : ∀ i ∈ node.ownNames, ∃ text, names.resolve? i.name = some text) :
    ∀ v ∈ node.own, Served ctx names v := by
  have hnames {is : List Syntax.Identifier}
      (h : ∀ i ∈ is, ∃ text, names.resolve? i.name = some text) :
      ∀ v ∈ is.flatMap Syntax.Identifier.visits, Served ctx names v := by
    intro v hv
    obtain ⟨i, hi, hv⟩ := List.mem_flatMap.mp hv
    obtain rfl := List.mem_singleton.mp hv
    exact h i hi
  cases node with
  | identifier i => exact hnames hname
  | hierarchical parts span =>
    cases parts with
    | nil => exact List.forall_mem_singleton.mpr trivial
    | cons first parts => exact hnames hname
  | «scoped» outer inner span => exact hnames hname
  | literal span => exact List.forall_mem_singleton.mpr (htext span rfl)
  | realLiteral span => exact List.forall_mem_singleton.mpr (htext span rfl)
  | stringLiteral span => exact List.forall_mem_singleton.mpr (htext span rfl)
  | error span => exact List.forall_mem_singleton.mpr trivial
  | _ => nofun

/-- A tree is served if each of its nodes is. -/
theorem served_visits {e : Syntax.Expr}
    (htexts : ∀ node ∈ e.subtrees, ∀ span ∈ node.text?, ∃ text, ctx.sources.snippet span = .ok text)
    (hnames : ∀ node ∈ e.subtrees, ∀ i ∈ node.ownNames, ∃ text, names.resolve? i.name = some text) :
    ∀ v ∈ e.visits, Served ctx names v := by
  intro v hv
  rw [e.visits_eq] at hv
  obtain ⟨node, hnode, hv⟩ := List.mem_flatMap.mp hv
  exact served_own (htexts node hnode) (hnames node hnode) v hv

/-- Expressions have faults exactly where they are flawed. If the texts of the literals are there,
lowering ends with the fault of the first flawed node, and gives a value if there is none; it does
end where the names are known, and trees that differ in parentheses alone are lowered alike. -/
theorem expression_faults {e : Syntax.Expr} (htexts : ∀ node ∈ e.subtrees, ∀ span ∈ node.text?,
      ∃ text, ctx.sources.snippet span = .ok text) (s : Session) :
    ((∀ node ∈ e.subtrees, ∀ i ∈ node.ownNames, ∃ text, s.names.resolve? i.name = some text) →
      ∃ r t, (expression ctx e).run.run.run s = (.ok r, t)) ∧
    (∀ r t, (expression ctx e).run.run.run s = (.ok r, t) →
      ((∃ a, r = .ok a) ↔ ∀ node ∈ e.subtrees, node.flaw? ctx = none) ∧
      ∀ fault, r = .error fault ↔ e.subtrees.findSome? (Syntax.Expr.flaw? ctx) = some fault) ∧
    ∀ e' : Syntax.Expr, e'.bare = e.bare → expression ctx e' = expression ctx e := by
  refine ⟨fun hnames => ?_, fun r t hrun => ?_, fun e' hbare => ?_⟩
  · obtain ⟨r, t, hrun, -⟩ := follows_expression e (served_visits htexts hnames) s (.refl _)
    exact ⟨r, t, hrun⟩
  · have hfault := faults_expression ctx e s r t hrun
    rw [firstFault?_visits] at hfault
    rw [← List.findSome?_eq_none_iff, ← hfault]
    cases r with
    | error fault => simp [faultOf?, eq_comm]
    | ok a => simp [faultOf?]
  · rw [← expression_bare ctx e', hbare, expression_bare]

/-- A base without digits, in parentheses. -/
theorem expression_faults_bare :
    ∃ t, (expression { sources := .ofList [("a.sv", "('b)")] }
        (.paren (.literal ⟨0, 1, 3⟩) ⟨0, 0, 4⟩)).run.run.run {} =
      (.ok (.error (.malformed .numberLiteral ⟨0, 1, 3⟩)), t) := by
  have htexts : ∀ node ∈ (Syntax.Expr.paren (.literal ⟨0, 1, 3⟩) ⟨0, 0, 4⟩).subtrees,
      ∀ span ∈ node.text?, ∃ text,
        (Sources.ofList [("a.sv", "('b)")]).snippet span = .ok text := by
    intro node hnode span hspan
    rcases List.mem_pair.mp hnode with rfl | rfl
    · cases hspan
    · obtain rfl := Option.some.inj hspan
      exact ⟨"'b", rfl⟩
  have hfaults := @expression_faults { sources := .ofList [("a.sv", "('b)")] } _ htexts {}
  obtain ⟨r, t, hrun⟩ := hfaults.1 fun node hnode i hi => by
    rcases List.mem_pair.mp hnode with rfl | rfl <;> cases hi
  obtain rfl := ((hfaults.2.1 r t hrun).2 (.malformed .numberLiteral ⟨0, 1, 3⟩)).mpr rfl
  exact ⟨t, hrun⟩

end Lowering

end Netlist
