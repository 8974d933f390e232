import Netlist.Proofs.Lowering.Settled

/-!
Tokens that tell an expression: they are written for a tree that lowers to it. The tree is the base
of a select wherever it stands, since operators are told in parentheses; so it can be put anywhere
without a change of grouping. There is one lemma for each form that the text of an expression has.
-/
namespace Netlist.Lowering

open Design (Expr Literal)
open Syntax (Identifier Writing)

variable (names : Names) (file : Nat)

/-- A file in which these tokens have their texts. -/
def Context.Holds (ctx : Context) (file : Nat) (ts : List Token) : Prop :=
  ∀ t ∈ ts, ctx.sources.snippet (t.span file) = .ok t.text

/-- The tree is written with these tokens and lowers to the expression. -/
structure TellsBy (tree : Syntax.Expr) (e : Expr) (ts : List Token) : Prop where
  grouped : tree.Grouped
  written : tree.Written (.ofNames names file) ts
  gives : ∀ ctx : Context, ctx.Holds file ts → Gives names (expression ctx tree) e

/-- The expression can be read from these tokens, and be the base of a select. -/
def Told (e : Expr) (ts : List Token) : Prop :=
  ∃ tree : Syntax.Expr, tree.IsBase ∧ TellsBy names file tree e ts

/-- The expressions can be read from these tokens, which list them in the way of `R`. -/
def ToldAll (R : (Syntax.Expr → List Token → Prop) → List Syntax.Expr → List Token → Prop)
    (es : List Expr) (ts : List Token) : Prop :=
  ∃ trees : List Syntax.Expr, (∀ tree ∈ trees, tree.Grouped) ∧
    R (Syntax.Expr.Written (.ofNames names file)) trees ts ∧
    ∀ ctx : Context, ctx.Holds file ts → Gives names (expressions ctx trees) es

variable {names file}

section Lists

variable {e : Expr} {es : List Expr} {ts us : List Token} {comma : Token}

theorem ToldAll.nil : ToldAll names file Following [] [] := by
  refine ⟨[], List.forall_mem_nil _, .nil, fun ctx _ => ?_⟩
  unfold expressions
  exact .pure _

private theorem gives_cons {ctx : Context} {tree : Syntax.Expr} {trees : List Syntax.Expr}
    (h : Gives names (expression ctx tree) e) (hes : Gives names (expressions ctx trees) es) :
    Gives names (expressions ctx (tree :: trees)) (e :: es) := by
  unfold expressions
  exact h.bind (hes.bind (.pure _))

theorem ToldAll.cons (hcomma : comma.kind = .comma) (h : Told names file e ts)
    (hes : ToldAll names file Following es us) :
    ToldAll names file Following (e :: es) (comma :: (ts ++ us)) := by
  obtain ⟨tree, -, htree⟩ := h
  obtain ⟨trees, hgrouped, hwritten, hgives⟩ := hes
  refine ⟨tree :: trees, List.forall_mem_cons.mpr ⟨htree.grouped, hgrouped⟩,
    .cons hcomma htree.written hwritten, fun ctx hctx => ?_⟩
  obtain ⟨-, hctx⟩ := List.forall_mem_cons.mp hctx
  obtain ⟨hts, hus⟩ := List.forall_mem_append.mp hctx
  exact gives_cons (htree.gives ctx hts) (hgives ctx hus)

theorem ToldAll.separated (h : Told names file e ts) (hes : ToldAll names file Following es us) :
    ToldAll names file Separated (e :: es) (ts ++ us) := by
  obtain ⟨tree, -, htree⟩ := h
  obtain ⟨trees, hgrouped, hwritten, hgives⟩ := hes
  refine ⟨tree :: trees, List.forall_mem_cons.mpr ⟨htree.grouped, hgrouped⟩,
    .mk htree.written hwritten, fun ctx hctx => ?_⟩
  obtain ⟨hts, hus⟩ := List.forall_mem_append.mp hctx
  exact gives_cons (htree.gives ctx hts) (hgives ctx hus)

theorem ToldAll.listed (h : ToldAll names file Separated es ts) :
    ToldAll names file Listed es ts := by
  obtain ⟨trees, hgrouped, hwritten, hgives⟩ := h
  exact ⟨trees, hgrouped, .some hwritten, hgives⟩

theorem ToldAll.listed_nil : ToldAll names file Listed [] [] := by
  refine ⟨[], List.forall_mem_nil _, .none, fun ctx _ => ?_⟩
  unfold expressions
  exact .pure _

end Lists

section Names

variable {i j : Nat} {t u colons : Token}

/-- The token of a name without an escape. -/
inductive NameToken (names : Names) : Nat → Token → Prop
  | mk {i : Nat} {t : Token} : t.kind = .identifier → Piece.NameText t.text.toList →
      names.find? t.text = some i → NameToken names i t

theorem NameToken.written (h : NameToken names i t) (span : Span) :
    (Identifier.mk i span).Written (.ofNames names file) [t] := by
  cases h with
  | mk hkind _ hfind => exact .mk (by rw [hkind]; rfl) hfind

theorem NameToken.settled (h : NameToken names i t) (span : Span) :
    SessionM.Settled names (identifier ⟨i, span⟩) (.id i) := by
  cases h with
  | mk _ htext hfind => exact settled_identifier htext hfind

/-- The tree of a name. -/
def nameTree (i : Nat) : Syntax.Expr := .identifier ⟨i, .dummy⟩

/-- The tree of a name in a scope. -/
def scopeTree (i j : Nat) : Syntax.Expr := .scoped ⟨i, .dummy⟩ ⟨j, .dummy⟩ .dummy

theorem tellsBy_name (h : NameToken names i t) : TellsBy names file (nameTree i) (.id i) [t] where
  grouped := .identifier
  written := .identifier (h.written _)
  gives ctx _ := by
    unfold nameTree expression
    exact .lift (h.settled _)

theorem tellsBy_scope (hi : NameToken names i t) (hcolons : colons.kind = .colonColon)
    (hj : NameToken names j u) :
    TellsBy names file (scopeTree i j) (.binary .scope (.id i) (.id j)) [t, colons, u] where
  grouped := .inScope
  written := .inScope (hi.written _) hcolons (hj.written _)
  gives ctx _ := by
    unfold scopeTree expression
    exact .bind (.lift (hi.settled _)) (.bind (.lift (hj.settled _)) (.pure _))

theorem told_name (h : NameToken names i t) : Told names file (.id i) [t] :=
  ⟨_, ⟨rfl, rfl, rfl⟩, tellsBy_name h⟩

theorem told_scope (hi : NameToken names i t) (hcolons : colons.kind = .colonColon)
    (hj : NameToken names j u) :
    Told names file (.binary .scope (.id i) (.id j)) [t, colons, u] :=
  ⟨_, ⟨rfl, rfl, rfl⟩, tellsBy_scope hi hcolons hj⟩

/-- The tokens of names behind dots. -/
inductive DottedTokens (names : Names) : List Nat → List Token → Prop
  | nil : DottedTokens names [] []
  | cons {i : Nat} {more : List Nat} {dot t : Token} {ts : List Token} : dot.kind = .dot →
      NameToken names i t → DottedTokens names more ts →
      DottedTokens names (i :: more) (dot :: t :: ts)

theorem DottedTokens.strung {more : List Nat} {ts : List Token} (h : DottedTokens names more ts) :
    Strung (Identifier.Dotted (.ofNames names file)) (more.map (⟨·, .dummy⟩)) ts := by
  induction h with
  | nil => exact .nil
  | cons hdot hname _ ih => exact .cons (.mk hdot (hname.written _)) ih

theorem DottedTokens.settled {more : List Nat} {ts : List Token} (h : DottedTokens names more ts)
    (base : Expr) :
    SessionM.Settled names (members base (more.map (⟨·, .dummy⟩))) (base.dotted more) := by
  induction h generalizing base with
  | nil => exact .pure _
  | cons hdot hname _ ih => exact (hname.settled _).bind (ih _)

theorem told_dotted {more : List Nat} {ts : List Token} (hi : NameToken names i t)
    (hne : more ≠ []) (hmore : DottedTokens names more ts) :
    Told names file (.dotted (.id i) more) (t :: ts) := by
  refine ⟨.hierarchical (⟨i, .dummy⟩ :: more.map (⟨·, .dummy⟩)) .dummy, ⟨rfl, rfl, rfl⟩,
    .hierarchical ?_, .hierarchical (hi.written _) hmore.strung, fun ctx _ => ?_⟩
  · have hpos := List.length_pos_iff.mpr hne
    rw [List.length_cons, List.length_map]
    omega
  · unfold expression
    exact .bind (.lift (hi.settled _)) (.lift (hmore.settled _))

end Names

section Forms

variable {e a b c : Expr} {es : List Expr} {ts us vs : List Token}
  {t opening closing mark inner outer : Token}

theorem told_literal {l : Literal} (h : l.ReadAs t.kind t.text.toList) :
    Told names file (.literal l) [t] := by
  have htext {ctx : Context} (hctx : ctx.Holds file [t]) :
      ctx.sources.snippet (t.span file) = .ok t.text := hctx t (List.mem_singleton_self t)
  generalize hkind : t.kind = kind at h
  generalize hcs : t.text.toList = cs at h
  cases h with
  | number hnumber hvalue =>
    refine ⟨.literal (t.span file), ⟨rfl, rfl, rfl⟩, .literal, .literal (hkind ▸ hnumber) rfl,
      fun ctx hctx => ?_⟩
    unfold expression numberLiteral
    refine .bind (.lift (settled_snippet (htext hctx))) ?_
    rw [hcs, hvalue]
    exact .pure _
  | real =>
    refine ⟨.realLiteral (t.span file), ⟨rfl, rfl, rfl⟩, .realLiteral, .realLiteral hkind rfl,
      fun ctx hctx => ?_⟩
    unfold expression
    rw [← hcs]
    exact .lift (gives_realLiteral (htext hctx))
  | str =>
    refine ⟨.stringLiteral (t.span file), ⟨rfl, rfl, rfl⟩, .stringLiteral, .stringLiteral hkind rfl,
      fun ctx hctx => ?_⟩
    unfold expression
    rw [← hcs]
    exact .lift (gives_stringLiteral (htext hctx))

theorem Told.index (ha : Told names file a ts) (hopening : opening.kind = .leftBracket)
    (hb : Told names file b us) (hclosing : closing.kind = .rightBracket) :
    Told names file (.index a b) (ts ++ opening :: (us ++ [closing])) := by
  obtain ⟨ta, hbase, hta⟩ := ha
  obtain ⟨tb, -, htb⟩ := hb
  refine ⟨.index ta tb .dummy, ⟨rfl, rfl, rfl⟩, .index hbase hta.grouped htb.grouped,
    .index hta.written hopening htb.written hclosing, fun ctx hctx => ?_⟩
  simp only [Context.Holds, List.forall_mem_append, List.forall_mem_cons] at hctx
  obtain ⟨hts, -, hus, -⟩ := hctx
  unfold expression
  exact (hta.gives ctx hts).bind ((htb.gives ctx hus).bind (.pure _))

theorem Told.range (ha : Told names file a ts) (hopening : opening.kind = .leftBracket)
    (hb : Told names file b us) (hmark : mark.kind = .colon) (hc : Told names file c vs)
    (hclosing : closing.kind = .rightBracket) :
    Told names file (.index a (.downto b c))
      (ts ++ opening :: (us ++ mark :: (vs ++ [closing]))) := by
  obtain ⟨ta, hbase, hta⟩ := ha
  obtain ⟨tb, -, htb⟩ := hb
  obtain ⟨tc, -, htc⟩ := hc
  refine ⟨.rangeSelect ta tb tc .dummy, ⟨rfl, rfl, rfl⟩,
    .rangeSelect hbase hta.grouped htb.grouped htc.grouped,
    .rangeSelect hta.written hopening htb.written hmark htc.written hclosing, fun ctx hctx => ?_⟩
  simp only [Context.Holds, List.forall_mem_append, List.forall_mem_cons] at hctx
  obtain ⟨hts, -, hus, -, hvs, -⟩ := hctx
  unfold expression
  exact (hta.gives ctx hts).bind ((htb.gives ctx hus).bind ((htc.gives ctx hvs).bind (.pure _)))

theorem Told.part {ascending : Bool} (ha : Told names file a ts)
    (hopening : opening.kind = .leftBracket) (hb : Told names file b us)
    (hmark : mark.kind = if ascending then .plusColon else .minusColon)
    (hc : Told names file c vs) (hclosing : closing.kind = .rightBracket) :
    Told names file
      (.index a (.binary (if ascending then .partSelectUp else .partSelectDown) b c))
      (ts ++ opening :: (us ++ mark :: (vs ++ [closing]))) := by
  obtain ⟨ta, hbase, hta⟩ := ha
  obtain ⟨tb, -, htb⟩ := hb
  obtain ⟨tc, -, htc⟩ := hc
  refine ⟨.partSelect ta tb ascending tc .dummy, ⟨rfl, rfl, rfl⟩,
    .partSelect hbase hta.grouped htb.grouped htc.grouped,
    .partSelect hta.written hopening htb.written hmark htc.written hclosing, fun ctx hctx => ?_⟩
  simp only [Context.Holds, List.forall_mem_append, List.forall_mem_cons] at hctx
  obtain ⟨hts, -, hus, -, hvs, -⟩ := hctx
  unfold expression
  exact (hta.gives ctx hts).bind ((htb.gives ctx hus).bind ((htc.gives ctx hvs).bind (.pure _)))

/-- Whatever can be read is told between parentheses. -/
theorem TellsBy.paren {tree : Syntax.Expr} (h : TellsBy names file tree e ts)
    (hopening : opening.kind = .leftParen) (hclosing : closing.kind = .rightParen) :
    Told names file e (opening :: (ts ++ [closing])) := by
  refine ⟨.paren tree .dummy, ⟨rfl, rfl, rfl⟩, .paren h.grouped,
    .paren hopening h.written hclosing, fun ctx hctx => ?_⟩
  simp only [Context.Holds, List.forall_mem_append, List.forall_mem_cons] at hctx
  unfold expression
  exact h.gives ctx hctx.2.1

theorem Told.unary {op : UnaryOp} (ha : Told names file a ts)
    (hopening : opening.kind = .leftParen) (ht : t.kind = op.kind)
    (hclosing : closing.kind = .rightParen) :
    Told names file (.unary op a) (opening :: (t :: ts ++ [closing])) := by
  obtain ⟨ta, hbase, hta⟩ := ha
  have htree : TellsBy names file (.unary op ta .dummy) (.unary op a) (t :: ts) := by
    refine ⟨.unary hbase.operator hbase.ternary hta.grouped, .unary ht hta.written,
      fun ctx hctx => ?_⟩
    obtain ⟨-, hts⟩ := List.forall_mem_cons.mp hctx
    unfold expression
    exact (hta.gives ctx hts).bind (.pure _)
  exact htree.paren hopening hclosing

theorem Told.operator {op : BinaryOp} (ha : Told names file a ts)
    (hopening : opening.kind = .leftParen) (ht : t.kind = op.kind) (hb : Told names file b us)
    (hclosing : closing.kind = .rightParen) :
    Told names file (.binary (.operator op) a b) (opening :: (ts ++ t :: us ++ [closing])) := by
  obtain ⟨ta, hbasea, hta⟩ := ha
  obtain ⟨tb, hbaseb, htb⟩ := hb
  have htree : TellsBy names file (.binary ta op tb .dummy) (.binary (.operator op) a b)
      (ts ++ t :: us) := by
    refine ⟨.binary hbasea.ternary hbaseb.ternary ?_ ?_ hta.grouped htb.grouped,
      .binary hta.written ht htb.written, fun ctx hctx => ?_⟩
    · intro inner hinner
      rw [hbasea.operator] at hinner
      cases hinner
    · intro inner hinner
      rw [hbaseb.operator] at hinner
      cases hinner
    · simp only [Context.Holds, List.forall_mem_append, List.forall_mem_cons] at hctx
      obtain ⟨hts, -, hus⟩ := hctx
      unfold expression
      exact (hta.gives ctx hts).bind ((htb.gives ctx hus).bind (.pure _))
  exact htree.paren hopening hclosing

theorem Told.ternary {question colon : Token} (ha : Told names file a ts)
    (hopening : opening.kind = .leftParen) (hquestion : question.kind = .question)
    (hb : Told names file b us) (hcolon : colon.kind = .colon) (hc : Told names file c vs)
    (hclosing : closing.kind = .rightParen) :
    Told names file (.ternary a b c)
      (opening :: (ts ++ question :: (us ++ colon :: vs) ++ [closing])) := by
  obtain ⟨ta, hbase, hta⟩ := ha
  obtain ⟨tb, -, htb⟩ := hb
  obtain ⟨tc, -, htc⟩ := hc
  have htree : TellsBy names file (.ternary ta tb tc .dummy) (.ternary a b c)
      (ts ++ question :: (us ++ colon :: vs)) := by
    refine ⟨.ternary hbase.ternary hta.grouped htb.grouped htc.grouped,
      .ternary hta.written hquestion htb.written hcolon htc.written, fun ctx hctx => ?_⟩
    simp only [Context.Holds, List.forall_mem_append, List.forall_mem_cons] at hctx
    obtain ⟨hts, -, hus, -, hvs⟩ := hctx
    unfold expression
    exact (hta.gives ctx hts).bind ((htb.gives ctx hus).bind ((htc.gives ctx hvs).bind (.pure _)))
  exact htree.paren hopening hclosing

theorem TellsBy.call {callee : Syntax.Expr} (hcallee : TellsBy names file callee a ts)
    (hname : callee.isName = true) (hopening : opening.kind = .leftParen)
    (hes : ToldAll names file Listed es us) (hclosing : closing.kind = .rightParen) :
    Told names file (.call a es) (ts ++ opening :: (us ++ [closing])) := by
  obtain ⟨trees, hgrouped, hwritten, hgives⟩ := hes
  refine ⟨.call callee trees .dummy, ⟨rfl, rfl, rfl⟩, .call hname hgrouped,
    .call hcallee.written hopening hwritten hclosing, fun ctx hctx => ?_⟩
  simp only [Context.Holds, List.forall_mem_append, List.forall_mem_cons] at hctx
  obtain ⟨hts, -, hus, -⟩ := hctx
  unfold expression
  exact (hcallee.gives ctx hts).bind ((hgives ctx hus).bind (.pure _))

theorem told_systemCall {i : Nat} (hkind : t.kind = .systemIdentifier)
    (hname : names.find? t.text = some i) (hopening : opening.kind = .leftParen)
    (hes : ToldAll names file Listed es us) (hclosing : closing.kind = .rightParen) :
    Told names file (.call (.id i) es) (t :: opening :: (us ++ [closing])) := by
  obtain ⟨trees, hgrouped, hwritten, hgives⟩ := hes
  refine ⟨.systemCall ⟨i, .dummy⟩ trees .dummy, ⟨rfl, rfl, rfl⟩, .systemCall hgrouped,
    .systemCall hkind hname hopening hwritten hclosing, fun ctx hctx => ?_⟩
  simp only [Context.Holds, List.forall_mem_append, List.forall_mem_cons] at hctx
  obtain ⟨-, -, hus, -⟩ := hctx
  unfold expression
  exact (hgives ctx hus).bind (.pure _)

theorem told_concat (hopening : opening.kind = .leftBrace)
    (hes : ToldAll names file Separated es us) (hclosing : closing.kind = .rightBrace) :
    Told names file (.concat es) (opening :: (us ++ [closing])) := by
  obtain ⟨trees, hgrouped, hwritten, hgives⟩ := hes
  refine ⟨.concat trees .dummy, ⟨rfl, rfl, rfl⟩, .concat hwritten.ne_nil hgrouped,
    .concat hopening hwritten hclosing, fun ctx hctx => ?_⟩
  simp only [Context.Holds, List.forall_mem_append, List.forall_mem_cons] at hctx
  unfold expression
  exact (hgives ctx hctx.2.1).bind (.pure _)

theorem Told.replicate (ha : Told names file a ts) (hopening : opening.kind = .leftBrace)
    (hinner : inner.kind = .leftBrace) (hes : ToldAll names file Separated es us)
    (hclosing : closing.kind = .rightBrace) (houter : outer.kind = .rightBrace) :
    Told names file (.replicate a es) (opening :: (ts ++ inner :: (us ++ [closing, outer]))) := by
  obtain ⟨ta, -, hta⟩ := ha
  obtain ⟨trees, hgrouped, hwritten, hgives⟩ := hes
  refine ⟨.replicate ta trees .dummy, ⟨rfl, rfl, rfl⟩,
    .replicate hta.grouped hwritten.ne_nil hgrouped,
    .replicate hopening hta.written hinner hwritten hclosing houter, fun ctx hctx => ?_⟩
  simp only [Context.Holds, List.forall_mem_append, List.forall_mem_cons] at hctx
  obtain ⟨-, hts, -, hus, -⟩ := hctx
  unfold expression
  exact (hta.gives ctx hts).bind ((hgives ctx hus).bind (.pure _))

end Forms

end Netlist.Lowering
