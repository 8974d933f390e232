import Netlist.Proofs.Design.Alike
import Netlist.Proofs.Lowering.Number
import Netlist.Proofs.Lowering.Outcome
import Netlist.Proofs.Syntax.Numbers

/-!
Expressions that are alike are lowered alike. Only number literals can go wrong: one that is bare
has no value.
-/
namespace Netlist.Lowering

open List (Forall₂)

variable {F : Frame} {P : Pairing} {N : Nat → Nat → Prop} {ctx ctx' : Context}

/-- What lowering needs of the two sides. -/
structure Lowers (F : Frame) (P : Pairing) (N : Nat → Nat → Prop) (ctx ctx' : Context) :
    Prop where
  known : ∀ text i j, F.name text i j → P.known i j
  kept : ∀ text i j, F.name text i j → N i j
  entered : ∀ text i j, P.name text i j → N i j
  flaw : ∀ {s s' : Span}, F.flaw s s' → F.broken
  text : ∀ {kind : Kind} {text : String} {s s' : Span}, F.leaf kind text s s' →
    ctx.sources.snippet s = .ok text ∧ ctx'.sources.snippet s' = .ok text
  number : ∀ {kind : Kind} {text : String} {s s' : Span}, kind.IsNumber → F.leaf kind text s s' →
    F.broken ∨ Piece.NumberText text.toList
  notice : ∀ (label : String) {s s' : Span}, F.span s s' →
    P.diag (noticeOf ctx.level label s) (noticeOf ctx'.level label s')

/-- Whether the text of a span is a bare literal. -/
def isBareAt (sources : Sources) (s : Span) : Bool :=
  match sources.snippet s with
  | .ok text => isBare text.toList
  | .error _ => false

/-- No number at these spans is bare. -/
def AllReadable (ctx : Context) (spans : List Span) : Prop :=
  ∀ s ∈ spans, isBareAt ctx.sources s = false

@[simp] theorem allReadable_nil : AllReadable ctx [] := nofun

@[simp] theorem allReadable_singleton {s : Span} :
    AllReadable ctx [s] ↔ isBareAt ctx.sources s = false :=
  List.forall_mem_singleton

@[simp] theorem allReadable_append {a b : List Span} :
    AllReadable ctx (a ++ b) ↔ AllReadable ctx a ∧ AllReadable ctx b := List.forall_mem_append

@[simp] theorem allReadable_flatMap {α : Type} {f : α → List Span} {as : List α} :
    AllReadable ctx (as.flatMap f) ↔ ∀ a ∈ as, AllReadable ctx (f a) := by
  simp only [AllReadable, List.mem_flatMap]
  exact ⟨fun h a ha s hs => h s ⟨a, ha, hs⟩, fun h s ⟨a, ha, hs⟩ => h a ha s hs⟩

theorem agree_intern (hL : Lowers F P N ctx ctx') (text : String) :
    SessionM.Agree P N (intern text) (intern text) :=
  .lift (.intern text (hL.entered text))

theorem agree_notice (hL : Lowers F P N ctx ctx') (label : String) {s s' : Span}
    (hs : F.span s s') :
    SessionM.Agree P (fun _ _ => True) (notice ctx label s) (notice ctx' label s') :=
  .lift (.emit (hL.notice label hs) fun _ => trivial)

theorem agree_snippet (hL : Lowers F P N ctx ctx') {kind : Kind} {text : String} {s s' : Span}
    (hleaf : F.leaf kind text s s') :
    SessionM.Agree P (fun t t' => t = text ∧ t' = text) (snippet ctx s) (snippet ctx' s') :=
  .ofExcept (hL.text hleaf).1 (hL.text hleaf).2 ⟨rfl, rfl⟩

theorem agree_identifier (hL : Lowers F P N ctx ctx') {i i' : Syntax.Identifier}
    (hi : i.Alike F i') :
    SessionM.Agree P (Design.Expr.Alike N) (identifier i) (identifier i') := by
  obtain ⟨_, hname, -⟩ := hi.name
  have hresolve : SessionM.Agree P Eq (resolve i.name) (resolve i'.name) :=
    .resolve (hL.known _ _ _ hname) fun _ => .ok rfl
  refine .bind hresolve fun text text' htext => ?_
  subst htext
  split
  · exact .bind (agree_intern hL _) fun _ _ hij => .pure (.id hij)
  · exact .pure (.id (hL.kept _ _ _ hname))

theorem agree_numberLiteral (hL : Lowers F P N ctx ctx') {kind : Kind} {text : String}
    {s s' : Span} (hkind : kind.IsNumber) (hleaf : F.leaf kind text s s') (hs : F.span s s') :
    LowerM.Agree F P (isBareAt ctx.sources s = false) (Design.Expr.Alike N) (numberLiteral ctx s)
      (numberLiteral ctx' s') := by
  have hbare : isBareAt ctx.sources s = isBare text.toList := by
    simp only [isBareAt, (hL.text hleaf).1]
  refine .bindLift (agree_snippet hL hleaf) fun t t' htext => ?_
  rw [htext.1, htext.2, hbare]
  split
  next value hvalue =>
    refine .pure ?_ (.literal value)
    by_contra hnone
    rw [number?_of_isBare (by simpa using hnone)] at hvalue
    cases hvalue
  next hnone =>
    refine .fail (fun hread => ?_) (.malformed hs)
    rcases hL.number hkind hleaf with hbroken | hnumber
    · exact hbroken
    · rw [(number?_eq_none_iff hnumber).mp hnone] at hread
      cases hread

theorem agree_realLiteral (hL : Lowers F P N ctx ctx') {kind : Kind} {text : String}
    {s s' : Span} (hleaf : F.leaf kind text s s') :
    SessionM.Agree P (Design.Expr.Alike N) (realLiteral ctx s) (realLiteral ctx' s') := by
  refine .bind (agree_snippet hL hleaf) fun t t' htext => ?_
  obtain ⟨rfl, rfl⟩ := htext
  exact .pure (.literal _)

theorem agree_stringLiteral (hL : Lowers F P N ctx ctx') {kind : Kind} {text : String}
    {s s' : Span} (hleaf : F.leaf kind text s s') :
    SessionM.Agree P (Design.Expr.Alike N) (stringLiteral ctx s) (stringLiteral ctx' s') := by
  refine .bind (agree_snippet hL hleaf) fun t t' htext => ?_
  obtain ⟨rfl, rfl⟩ := htext
  exact .pure (.literal _)

theorem agree_members (hL : Lowers F P N ctx ctx') {parts parts' : List Syntax.Identifier}
    (hparts : Forall₂ (Syntax.Identifier.Alike F) parts parts') {base base' : Design.Expr}
    (hbase : base.Alike N base') :
    SessionM.Agree P (Design.Expr.Alike N) (members base parts) (members base' parts') := by
  induction hparts generalizing base base' with
  | nil => exact .pure hbase
  | cons hpart hrest ih =>
    exact .bind (agree_identifier hL hpart) fun name name' hname => ih (.binary hbase hname)

mutual

theorem agree_expression (hL : Lowers F P N ctx ctx') : (e : Syntax.Expr) → {e' : Syntax.Expr} →
    e.Alike F e' → LowerM.Agree F P (AllReadable ctx e.numbers) (Design.Expr.Alike N)
      (expression ctx e) (expression ctx' e')
  | .identifier _, _, .identifier hi => by
    unfold expression
    exact .lift allReadable_nil (agree_identifier hL hi)
  | .hierarchical _ _, _, .hierarchical hfirst hmore _ => by
    unfold expression
    refine .bindLift (agree_identifier hL hfirst) fun base base' hbase => ?_
    exact .lift allReadable_nil (agree_members hL hmore hbase)
  | .scoped _ _ _, _, .scoped houter hinner _ => by
    unfold expression
    refine .bindLift (agree_identifier hL houter) fun o o' ho => ?_
    refine .bindLift (agree_identifier hL hinner) fun i i' hi => ?_
    exact .pure allReadable_nil (.binary ho hi)
  | .literal _, _, .literal hkind hleaf hs => by
    unfold expression
    rw [Syntax.Expr.numbers, allReadable_singleton]
    exact agree_numberLiteral hL hkind hleaf hs
  | .realLiteral _, _, .realLiteral hleaf _ => by
    unfold expression
    exact .lift allReadable_nil (agree_realLiteral hL hleaf)
  | .stringLiteral _, _, .stringLiteral hleaf _ => by
    unfold expression
    exact .lift allReadable_nil (agree_stringLiteral hL hleaf)
  | .index a b _, _, .index ha hb _ => by
    simp only [expression, Syntax.Expr.numbers, allReadable_append]
    refine .bind (agree_expression hL a ha) fun _ _ ha => ?_
    exact .map (agree_expression hL b hb) fun _ _ hb => .binary ha hb
  | .rangeSelect a b c _, _, .rangeSelect ha hb hc _ => by
    simp only [expression, Syntax.Expr.numbers, allReadable_append]
    refine .bind (agree_expression hL a ha) fun _ _ ha => ?_
    refine .bind (agree_expression hL b hb) fun _ _ hb => ?_
    exact .map (agree_expression hL c hc) fun _ _ hc => .binary ha (.binary hb hc)
  | .partSelect a b _ c _, _, .partSelect ha hb hc _ => by
    simp only [expression, Syntax.Expr.numbers, allReadable_append]
    refine .bind (agree_expression hL a ha) fun _ _ ha => ?_
    refine .bind (agree_expression hL b hb) fun _ _ hb => ?_
    exact .map (agree_expression hL c hc) fun _ _ hc => .binary ha (.binary hb hc)
  | .concat es _, _, .concat hes _ => by
    unfold expression
    exact .map (agree_expressions hL es hes) fun _ _ hes => .concat hes
  | .replicate n es _, _, .replicate hn hes _ => by
    simp only [expression, Syntax.Expr.numbers, allReadable_append]
    refine .bind (agree_expression hL n hn) fun _ _ hn => ?_
    exact .map (agree_expressions hL es hes) fun _ _ hes => .replicate hn hes
  | .unary _ a _, _, .unary ha _ => by
    unfold expression
    exact .map (agree_expression hL a ha) fun _ _ ha => .unary ha
  | .binary a _ b _, _, .binary ha hb _ => by
    simp only [expression, Syntax.Expr.numbers, allReadable_append]
    refine .bind (agree_expression hL a ha) fun _ _ ha => ?_
    exact .map (agree_expression hL b hb) fun _ _ hb => .binary ha hb
  | .ternary a b c _, _, .ternary ha hb hc _ => by
    simp only [expression, Syntax.Expr.numbers, allReadable_append]
    refine .bind (agree_expression hL a ha) fun _ _ ha => ?_
    refine .bind (agree_expression hL b hb) fun _ _ hb => ?_
    exact .map (agree_expression hL c hc) fun _ _ hc => .ternary ha hb hc
  | .call f es _, _, .call hf hes _ => by
    simp only [expression, Syntax.Expr.numbers, allReadable_append]
    refine .bind (agree_expression hL f hf) fun _ _ hf => ?_
    exact .map (agree_expressions hL es hes) fun _ _ hes => .call hf hes
  | .systemCall _ es _, _, .systemCall hi hes _ => by
    obtain ⟨_, hname, -⟩ := hi.name
    unfold expression
    exact .map (agree_expressions hL es hes) fun _ _ hes => .call (.id (hL.kept _ _ _ hname)) hes
  | .paren a _, _, .paren ha _ => by
    unfold expression
    exact agree_expression hL a ha
  | .error _, _, .error hflaw hs => by
    unfold expression
    exact .fail (fun _ => hL.flaw hflaw) (.malformed hs)

theorem agree_expressions (hL : Lowers F P N ctx ctx') : (es : List Syntax.Expr) →
    {es' : List Syntax.Expr} → Forall₂ (Syntax.Expr.Alike F) es es' →
    LowerM.Agree F P (AllReadable ctx (Syntax.Expr.numbersOf es)) (Forall₂ (Design.Expr.Alike N))
      (expressions ctx es) (expressions ctx' es')
  | [], _, .nil => by
    unfold expressions
    exact .pure allReadable_nil .nil
  | e :: es, _, .cons he hes => by
    simp only [expressions, Syntax.Expr.numbersOf, allReadable_append]
    refine .bind (agree_expression hL e he) fun _ _ he => ?_
    exact .map (agree_expressions hL es hes) fun _ _ hes => .cons he hes

end

end Netlist.Lowering
