import Netlist.Lowering.Expression
import Netlist.Proofs.Design.Readable
import Netlist.Proofs.Parser.Ensures.Expression
import Netlist.Proofs.Token.Shapes

/-!
Lowering where no name is escaped. It asks the session only for names that are there and emits
nothing, so its result is settled by the names alone, and the session stays as it is. What it gives
for a tree that was written with such tokens can be read from its text.
-/
namespace Netlist

variable {α β : Type} {names : Names}

/-- Work that gives `a` in every session with these names, and leaves it as it is. -/
def SessionM.Settled (names : Names) (x : SessionM α) (a : α) : Prop :=
  ∀ s, names.Extends s.names → x.run.run s = (.ok a, s) ∧ x.run.emitted s = []

namespace SessionM.Settled

variable {x : SessionM α} {f : α → SessionM β} {a : α} {b : β}

theorem pure (a : α) : Settled names (Pure.pure a) a := fun _ _ => ⟨rfl, rfl⟩

theorem bind (hx : Settled names x a) (hf : Settled names (f a) b) :
    Settled names (x >>= f) b := by
  intro s hs
  obtain ⟨hrun, hquiet⟩ := hx s hs
  obtain ⟨hrun', hquiet'⟩ := hf s hs
  rw [run_bind hrun, emitted_bind hrun, hquiet, hquiet', hrun']
  exact ⟨rfl, rfl⟩

theorem ofExcept {r : Except Misuse α} (h : r = .ok a) : Settled names (SessionM.ofExcept r) a := by
  subst h
  exact pure a

end SessionM.Settled

namespace Lowering

open Design (Expr)

/-- Lowering that gives `a` in every session with these names, and leaves it as it is. -/
def Gives (names : Names) (x : LowerM α) (a : α) : Prop := SessionM.Settled names x.run (.ok a)

/-- Lowering with a settled result, which has the property `P` unless it is a fault. -/
def Settles (names : Names) (x : LowerM α) (P : α → Prop) : Prop :=
  ∃ r, SessionM.Settled names x.run r ∧ ∀ a, r = .ok a → P a

namespace Gives

variable {x : LowerM α} {f : α → LowerM β} {a : α} {b : β}

theorem pure (a : α) : Gives names (Pure.pure a) a := SessionM.Settled.pure _

theorem bind (hx : Gives names x a) (hf : Gives names (f a) b) : Gives names (x >>= f) b :=
  SessionM.Settled.bind (show SessionM.Settled names x _ from hx) hf

theorem lift {x : SessionM α} (hx : SessionM.Settled names x a) :
    Gives names (ExceptT.lift x) a :=
  SessionM.Settled.bind hx (SessionM.Settled.pure _)

end Gives

namespace Settles

variable {x : LowerM α} {f : α → LowerM β} {a : α} {P : α → Prop} {Q : β → Prop}

theorem of_gives (h : Gives names x a) (ha : P a) : Settles names x P :=
  ⟨.ok a, h, fun _ heq => Except.ok.inj heq ▸ ha⟩

theorem pure (ha : P a) : Settles names (Pure.pure a) P := of_gives (.pure a) ha

theorem fail (fault : Fault) : Settles names (Lowering.fail fault : LowerM α) P :=
  ⟨.error fault, SessionM.Settled.pure _, nofun⟩

theorem bind (hx : Settles names x P) (hf : ∀ a, P a → Settles names (f a) Q) :
    Settles names (x >>= f) Q := by
  obtain ⟨r, hr, hP⟩ := hx
  cases r with
  | error fault =>
    exact ⟨.error fault, SessionM.Settled.bind (show SessionM.Settled names x _ from hr) (.pure _),
      nofun⟩
  | ok a =>
    obtain ⟨r, hr', hQ⟩ := hf a (hP a rfl)
    exact ⟨r, SessionM.Settled.bind (show SessionM.Settled names x _ from hr) hr', hQ⟩

theorem bindGives (hx : Gives names x a) (hf : Settles names (f a) Q) :
    Settles names (x >>= f) Q :=
  bind (P := (· = a)) (of_gives hx rfl) fun _ ha => ha ▸ hf

theorem bindLift {x : SessionM α} (hx : SessionM.Settled names x a)
    (hf : Settles names (f a) Q) : Settles names (ExceptT.lift x >>= f) Q :=
  bindGives (.lift hx) hf

end Settles

section Plain

open Syntax (Writing)

variable {ctx : Context} {file : Nat}

/-- What lowering reads of a token that is no escaped name: a text of the shape of its kind. -/
structure IsPlain (ctx : Context) (file : Nat) (t : Token) : Prop where
  shaped : t.Shaped
  unescaped : t.kind ≠ .escapedIdentifier
  snippet : ctx.sources.snippet (t.span file) = .ok t.text

theorem settled_resolve {i : Nat} {text : String} (h : names.find? text = some i) :
    SessionM.Settled names (resolve i) text := by
  intro s hs
  refine ⟨?_, rfl⟩
  show (s.names.resolve i, s) = _
  rw [Names.resolve_eq_ok (hs.resolve? (Names.resolve?_of_find? h))]

theorem settled_identifier {i : Syntax.Identifier} {text : String}
    (htext : Piece.NameText text.toList) (hfind : names.find? text = some i.name) :
    SessionM.Settled names (identifier i) (.id i.name) := by
  refine (settled_resolve hfind).bind ?_
  generalize text.toList = cs at htext
  cases htext with
  | mk hstart _ _ =>
    split
    next heq =>
      cases heq
      cases hstart
    next => exact .pure _

theorem settled_snippet {span : Span} {text : String} (h : ctx.sources.snippet span = .ok text) :
    SessionM.Settled names (snippet ctx span) text := .ofExcept h

variable {ts : List Token}

theorem kind_of_isIdentifier {kind : Kind} (h : kind.isIdentifier = true)
    (hescaped : kind ≠ .escapedIdentifier) : kind = .identifier := by
  cases kind with
  | identifier => rfl
  | escapedIdentifier => exact absurd rfl hescaped
  | _ => cases h

/-- A name that was written without an escape. -/
theorem settled_written {i : Syntax.Identifier} (h : i.Written (.ofNames names file) ts)
    (hts : ∀ t ∈ ts, IsPlain ctx file t) :
    Design.IsName names i.name ∧ SessionM.Settled names (identifier i) (.id i.name) := by
  cases h with
  | @mk t hkind hname =>
    have ht := hts t (List.mem_singleton_self t)
    have hidentifier : t.kind = .identifier := kind_of_isIdentifier hkind ht.unescaped
    have htext := ht.shaped.name hidentifier
    exact ⟨.mk htext hname, settled_identifier htext hname⟩

theorem settled_members {more : List Syntax.Identifier}
    (h : Strung (Syntax.Identifier.Dotted (.ofNames names file)) more ts)
    (hts : ∀ t ∈ ts, IsPlain ctx file t) (base : Expr) :
    (∀ i ∈ more.map (·.name), Design.IsName names i) ∧
      SessionM.Settled names (members base more) (base.dotted (more.map (·.name))) := by
  induction h generalizing base with
  | nil => exact ⟨List.forall_mem_nil _, .pure _⟩
  | cons hdotted _ ih =>
    cases hdotted with
    | mk hdot hname =>
      obtain ⟨hfirst, hrest⟩ := List.forall_mem_append.mp hts
      obtain ⟨-, hfirst⟩ := List.forall_mem_cons.mp hfirst
      obtain ⟨hi, hsettled⟩ := settled_written hname hfirst
      obtain ⟨hmore, hsettled'⟩ := ih hrest _
      exact ⟨List.forall_mem_cons.mpr ⟨hi, hmore⟩, hsettled.bind hsettled'⟩

/-- The literals of an expression, from its text on. -/
theorem settles_literal {t : Token} (ht : IsPlain ctx file t) (hkind : t.kind.IsNumber) :
    Settles names (numberLiteral ctx (t.span file)) fun e => e.IsPortable → e.Readable names := by
  refine .bindLift (settled_snippet ht.snippet) ?_
  split
  next value hvalue =>
    exact .pure fun _ => .literal (Design.Literal.readable_number? (ht.shaped.number hkind) hvalue)
  next => exact .fail _

theorem gives_realLiteral {t : Token} (hsnippet : ctx.sources.snippet (t.span file) = .ok t.text) :
    SessionM.Settled names (realLiteral ctx (t.span file))
      (.literal (.real (String.ofList (withoutSeparators t.text.toList)))) :=
  (settled_snippet hsnippet).bind (.pure _)

theorem gives_stringLiteral {t : Token}
    (hsnippet : ctx.sources.snippet (t.span file) = .ok t.text) :
    SessionM.Settled names (stringLiteral ctx (t.span file))
      (.literal (.str (String.ofList (stringValue t.text.toList)))) :=
  (settled_snippet hsnippet).bind (.pure _)

/-- An expression that can be read from its text if its literals allow it. -/
def IsSound (names : Names) (e : Expr) : Prop := e.IsPortable → e.Readable names

/-- The expressions that trees were lowered to, one for each. -/
structure AreSound (names : Names) (trees : List Syntax.Expr) (es : List Expr) : Prop where
  length : es.length = trees.length
  sound : ∀ e ∈ es, IsSound names e

theorem AreSound.ne_nil {trees : List Syntax.Expr} {es : List Expr} (h : AreSound names trees es)
    (hne : trees ≠ []) : es ≠ [] := by
  rw [← List.length_pos_iff] at hne ⊢
  rwa [h.length]

theorem gives_callee {callee : Syntax.Expr} (hname : callee.isName = true)
    (h : callee.Written (.ofNames names file) ts) (hts : ∀ t ∈ ts, IsPlain ctx file t) :
    ∃ f, Gives names (expression ctx callee) f ∧ Expr.IsCallee names f := by
  cases h with
  | identifier hi =>
    obtain ⟨hname, hsettled⟩ := settled_written hi hts
    refine ⟨_, ?_, .name hname⟩
    unfold expression
    exact .lift hsettled
  | inScope ha _ hb =>
    obtain ⟨hts, hus⟩ := List.forall_mem_append.mp hts
    obtain ⟨-, hus⟩ := List.forall_mem_cons.mp hus
    obtain ⟨houter, hsettled⟩ := settled_written ha hts
    obtain ⟨hinner, hsettled'⟩ := settled_written hb hus
    refine ⟨_, ?_, .inScope houter hinner⟩
    unfold expression
    exact .bind (.lift hsettled) (.bind (.lift hsettled') (.pure _))
  | _ => cases hname

/-- The name and the arguments of a system function, with or without parentheses. -/
theorem systemCall_written {i : Syntax.Identifier} {args : List Syntax.Expr} {span : Span}
    (h : (Syntax.Expr.systemCall i args span).Written (.ofNames names file) ts)
    (hts : ∀ t ∈ ts, IsPlain ctx file t) :
    Design.IsSystemName names i.name ∧ ∀ tree ∈ args, ∃ ts,
      tree.Written (.ofNames names file) ts ∧ ∀ t ∈ ts, IsPlain ctx file t := by
  cases h with
  | @systemName _ _ t hkind hname =>
    have ht := hts t (List.mem_singleton_self t)
    exact ⟨.mk (ht.shaped.system hkind) hname, List.forall_mem_nil _⟩
  | systemCall hkind hname _ hargs _ =>
    simp only [List.forall_mem_append, List.forall_mem_cons] at hts
    obtain ⟨ht, -, hus, -⟩ := hts
    exact ⟨.mk (ht.shaped.system hkind) hname, hargs.forall_mem_tokens hus⟩

open Design.Expr (isPortable_unary isPortable_binary isPortable_ternary isPortable_call isPortable_concat
  isPortable_replicate)

mutual

theorem settles_expression : (tree : Syntax.Expr) → {ts : List Token} → tree.Grouped →
    tree.Written (.ofNames names file) ts → (∀ t ∈ ts, IsPlain ctx file t) →
    Settles names (expression ctx tree) (IsSound names)
  | .identifier _, _, _, .identifier hi, hts => by
    obtain ⟨hname, hsettled⟩ := settled_written hi hts
    unfold expression
    exact .of_gives (.lift hsettled) fun _ => .name hname
  | .hierarchical _ _, _, .hierarchical hlength, .hierarchical hfirst hmore, hts => by
    obtain ⟨hts, hus⟩ := List.forall_mem_append.mp hts
    obtain ⟨hname, hsettled⟩ := settled_written hfirst hts
    obtain ⟨hnames, hsettled'⟩ := settled_members hmore hus (.id _)
    unfold expression
    refine .bindLift hsettled (.of_gives (.lift hsettled') fun _ => .dotted hname ?_ hnames)
    intro hnil
    rw [List.map_eq_nil_iff.mp hnil, List.length_singleton] at hlength
    exact absurd hlength (by decide)
  | .scoped _ _ _, _, _, .inScope ha _ hb, hts => by
    obtain ⟨hts, hus⟩ := List.forall_mem_append.mp hts
    obtain ⟨-, hus⟩ := List.forall_mem_cons.mp hus
    obtain ⟨houter, hsettled⟩ := settled_written ha hts
    obtain ⟨hinner, hsettled'⟩ := settled_written hb hus
    unfold expression
    exact .bindLift hsettled (.bindLift hsettled' (.pure fun _ => .inScope houter hinner))
  | .literal _, _, _, .literal hkind hleaf, hts => by
    cases hleaf
    unfold expression
    exact settles_literal (hts _ (List.mem_singleton_self _)) hkind
  | .realLiteral _, _, _, .realLiteral hkind hleaf, hts => by
    cases hleaf
    have ht := hts _ (List.mem_singleton_self _)
    unfold expression
    refine .of_gives (.lift (gives_realLiteral ht.snippet)) fun hport => .literal ?_
    exact Design.Literal.readable_real (ht.shaped.real hkind)
      (hport _ (List.mem_singleton_self _))
  | .stringLiteral _, _, _, .stringLiteral hkind hleaf, hts => by
    cases hleaf
    have ht := hts _ (List.mem_singleton_self _)
    unfold expression
    refine .of_gives (.lift (gives_stringLiteral ht.snippet)) fun hport => .literal ?_
    exact Design.Literal.readable_str (hport _ (List.mem_singleton_self _))
  | .index a b _, _, .index _ hga hgb, .index ha _ hb _, hts => by
    simp only [List.forall_mem_append, List.forall_mem_cons] at hts
    obtain ⟨has, -, hbs, -⟩ := hts
    unfold expression
    refine .bind (settles_expression a hga ha has) fun a' ha' => ?_
    refine .bind (settles_expression b hgb hb hbs) fun b' hb' => .pure fun hport => ?_
    obtain ⟨hpa, hpb⟩ := isPortable_binary.mp hport
    exact .index (ha' hpa) (hb' hpb)
  | .rangeSelect a b c _, _, .rangeSelect _ hga hgb hgc, .rangeSelect ha _ hb _ hc _, hts => by
    simp only [List.forall_mem_append, List.forall_mem_cons] at hts
    obtain ⟨has, -, hbs, -, hcs, -⟩ := hts
    unfold expression
    refine .bind (settles_expression a hga ha has) fun a' ha' => ?_
    refine .bind (settles_expression b hgb hb hbs) fun b' hb' => ?_
    refine .bind (settles_expression c hgc hc hcs) fun c' hc' => .pure fun hport => ?_
    obtain ⟨hpa, hport⟩ := isPortable_binary.mp hport
    obtain ⟨hpb, hpc⟩ := isPortable_binary.mp hport
    exact .range (ha' hpa) (hb' hpb) (hc' hpc)
  | .partSelect a b _ c _, _, .partSelect _ hga hgb hgc, .partSelect ha _ hb _ hc _, hts => by
    simp only [List.forall_mem_append, List.forall_mem_cons] at hts
    obtain ⟨has, -, hbs, -, hcs, -⟩ := hts
    unfold expression
    refine .bind (settles_expression a hga ha has) fun a' ha' => ?_
    refine .bind (settles_expression b hgb hb hbs) fun b' hb' => ?_
    refine .bind (settles_expression c hgc hc hcs) fun c' hc' => .pure fun hport => ?_
    obtain ⟨hpa, hport⟩ := isPortable_binary.mp hport
    obtain ⟨hpb, hpc⟩ := isPortable_binary.mp hport
    exact .part (ha' hpa) (hb' hpb) (hc' hpc)
  | .concat es _, _, .concat hne hges, .concat _ hes _, hts => by
    simp only [List.forall_mem_append, List.forall_mem_cons] at hts
    obtain ⟨-, hus, -⟩ := hts
    unfold expression
    refine .bind (settles_expressions es hges (hes.forall_mem_tokens hus)) fun es' hes' => ?_
    refine .pure fun hport => .concat (hes'.ne_nil hne) fun e he => ?_
    exact hes'.sound e he (isPortable_concat.mp hport e he)
  | .replicate n es _, _, .replicate hgn hne hges, .replicate _ hn _ hes _ _, hts => by
    simp only [List.forall_mem_append, List.forall_mem_cons] at hts
    obtain ⟨-, hns, -, hus, -⟩ := hts
    unfold expression
    refine .bind (settles_expression n hgn hn hns) fun n' hn' => ?_
    refine .bind (settles_expressions es hges (hes.forall_mem_tokens hus)) fun es' hes' => ?_
    refine .pure fun hport => ?_
    obtain ⟨hpn, hpes⟩ := isPortable_replicate.mp hport
    exact .replicate (hn' hpn) (hes'.ne_nil hne) fun e he => hes'.sound e he (hpes e he)
  | .unary _ a _, _, .unary _ _ hga, .unary _ ha, hts => by
    obtain ⟨-, has⟩ := List.forall_mem_cons.mp hts
    unfold expression
    refine .bind (settles_expression a hga ha has) fun a' ha' => .pure fun hport => ?_
    exact .unary (ha' (isPortable_unary.mp hport))
  | .binary a _ b _, _, .binary _ _ _ _ hga hgb, .binary ha _ hb, hts => by
    simp only [List.forall_mem_append, List.forall_mem_cons] at hts
    obtain ⟨has, -, hbs⟩ := hts
    unfold expression
    refine .bind (settles_expression a hga ha has) fun a' ha' => ?_
    refine .bind (settles_expression b hgb hb hbs) fun b' hb' => .pure fun hport => ?_
    obtain ⟨hpa, hpb⟩ := isPortable_binary.mp hport
    exact .operator (ha' hpa) (hb' hpb)
  | .ternary a b c _, _, .ternary _ hga hgb hgc, .ternary ha _ hb _ hc, hts => by
    simp only [List.forall_mem_append, List.forall_mem_cons] at hts
    obtain ⟨has, -, hbs, -, hcs⟩ := hts
    unfold expression
    refine .bind (settles_expression a hga ha has) fun a' ha' => ?_
    refine .bind (settles_expression b hgb hb hbs) fun b' hb' => ?_
    refine .bind (settles_expression c hgc hc hcs) fun c' hc' => .pure fun hport => ?_
    obtain ⟨hpa, hpb, hpc⟩ := isPortable_ternary.mp hport
    exact .ternary (ha' hpa) (hb' hpb) (hc' hpc)
  | .call f es _, _, .call hname hges, .call hf _ hes _, hts => by
    simp only [List.forall_mem_append, List.forall_mem_cons] at hts
    obtain ⟨hfs, -, hus, -⟩ := hts
    obtain ⟨f', hgives, hcallee⟩ := gives_callee hname hf hfs
    unfold expression
    refine .bindGives hgives ?_
    refine .bind (settles_expressions es hges (hes.forall_mem_tokens hus)) fun es' hes' => ?_
    refine .pure fun hport => .call hcallee fun e he => ?_
    exact hes'.sound e he ((isPortable_call.mp hport).2 e he)
  | .systemCall i es _, _, .systemCall hges, hwritten, hts => by
    obtain ⟨hname, hargs⟩ := systemCall_written hwritten hts
    unfold expression
    refine .bind (settles_expressions es hges hargs) fun es' hes' => ?_
    refine .pure fun hport => .call (.system hname) fun e he => ?_
    exact hes'.sound e he ((isPortable_call.mp hport).2 e he)
  | .paren a _, _, .paren hga, .paren _ ha _, hts => by
    simp only [List.forall_mem_append, List.forall_mem_cons] at hts
    unfold expression
    exact settles_expression a hga ha hts.2.1

theorem settles_expressions : (trees : List Syntax.Expr) → (∀ tree ∈ trees, tree.Grouped) →
    (∀ tree ∈ trees, ∃ ts, tree.Written (.ofNames names file) ts ∧ ∀ t ∈ ts, IsPlain ctx file t) →
    Settles names (expressions ctx trees) (AreSound names trees)
  | [], _, _ => by
    unfold expressions
    exact .pure ⟨rfl, List.forall_mem_nil _⟩
  | tree :: trees, hgrouped, hwritten => by
    obtain ⟨hg, hgrouped⟩ := List.forall_mem_cons.mp hgrouped
    obtain ⟨⟨ts, hw, hts⟩, hwritten⟩ := List.forall_mem_cons.mp hwritten
    unfold expressions
    refine .bind (settles_expression tree hg hw hts) fun e he => ?_
    refine .bind (settles_expressions trees hgrouped hwritten) fun es hes => .pure ?_
    exact ⟨congrArg (· + 1) hes.length, List.forall_mem_cons.mpr ⟨he, hes.sound⟩⟩

end

end Plain

end Lowering

end Netlist
