import Netlist.Proofs.Parser.Accepts
import Netlist.Proofs.Syntax.Grouping

/-!
The parser of expressions accepts every grouped tree. The parts are taken over the parser of their
subexpressions, as they are written; the bound on the nesting carries the induction over that. Along
the left side of a tree the parser goes the other way round: it reads the innermost operand and then
adds what follows, so there the tokens behind the operand are handed on to a continuation.
-/
namespace Netlist

open List (Forall₂)

namespace Syntax.Writing

/-- A name and the index that its text has got. -/
def names (W : Writing) (N : Names) (i j : Nat) : Prop :=
  ∃ text, W.name i text ∧ N.find? text = some j

/-- The span of a literal and that of its token. -/
def spans (W : Writing) (file : Nat) (s s' : Span) : Prop := ∃ t, W.leaf s t ∧ s' = t.span file

end Syntax.Writing

namespace Parser

open Syntax

/-- No name goes on with a token of this kind. -/
def EndsName (k : Kind) : Prop := k ≠ .leftParen ∧ k ≠ .colonColon ∧ k ≠ .dot

instance (k : Kind) : Decidable (EndsName k) := inferInstanceAs (Decidable (_ ∧ _))

/-- A token of this kind can stand behind an expression that is sought with the power `least`. -/
structure Follows (least : Nat) (k : Kind) : Prop where
  stops : Stops least k
  endsName : EndsName k

/-- What is read before any select, dot or infix operator. -/
def isOperand : Expr → Bool
  | .hierarchical _ _ => false
  | .index _ _ _ => false
  | .rangeSelect _ _ _ _ => false
  | .partSelect _ _ _ _ _ => false
  | .binary _ _ _ _ => false
  | .ternary _ _ _ _ => false
  | _ => true

/-- The parser of subexpressions accepts grouped trees as long as fewer than `bound` tokens are
ahead. -/
def AcceptsWithin (W : Writing) (file bound : Nat) (expr : Nat → ParserM Expr) : Prop :=
  ∀ {e : Expr} {ts rest : List Token} {least : Nat}, e.Grouped → e.Written W ts → e.Fits least →
    Follows least (headKind rest) → (ts ++ rest).length < bound →
    Accepts file (expr least) ts rest fun N e' => e.Same (W.names N) (W.spans file) e'

variable {W : Writing} {file bound : Nat} {expr : Nat → ParserM Expr} {ts rest : List Token}

/-- The kinds of the tokens that can stand behind a whole expression. -/
def followers : List Kind :=
  [.rightParen, .rightBracket, .rightBrace, .leftBrace, .comma, .semicolon, .colon, .plusColon,
   .minusColon, .attrClose, .eof]

theorem follows_zero {k : Kind} (h : k ∈ followers) : Follows 0 k := by
  simp only [followers, List.mem_cons, List.not_mem_nil, or_false] at h
  rcases h with rfl | rfl | rfl | rfl | rfl | rfl | rfl | rfl | rfl | rfl | rfl <;>
    exact ⟨⟨by decide, by decide, by decide, fun op hop => absurd hop (by cases op <;> decide)⟩,
      by decide⟩

theorem headKind_ne {e : Expr} (h : e.Written W ts) {kind : Kind}
    (hkind : startsExpression kind = false) : headKind (ts ++ rest) ≠ kind := by
  obtain ⟨t, ts, rfl, ht⟩ := h.exists_head
  rintro rfl
  rw [show headKind (t :: ts ++ rest) = t.kind from rfl, ht] at hkind
  cases hkind

theorem eq_of_isIdentifier {kind : Kind} (h : kind.isIdentifier = true) :
    kind = .identifier ∨ kind = .escapedIdentifier := by
  cases kind <;> first | exact .inl rfl | exact .inr rfl | cases h

theorem headKind_following {α : Type} {R : α → List Token → Prop} {as : List α}
    (h : Following R as ts) (hrest : headKind rest ∈ followers) :
    headKind (ts ++ rest) ∈ followers := by
  cases h with
  | nil => exact hrest
  | cons hcomma _ _ =>
    rw [List.cons_append, headKind, hcomma]
    decide

theorem accepts_nameOr {i : Identifier} (h : i.Written W ts) {missing : Kind → SyntaxError} :
    Accepts file (nameOr missing) ts rest fun N j => W.names N i.name j.name := by
  cases h with
  | mk hkind hname => exact (Accepts.nameOr hkind).mono fun N j hj => ⟨_, hname, hj⟩

theorem accepts_scopedName {e : Expr} (hname : e.isName = true) (hw : e.Written W ts)
    (hrest : headKind rest ≠ .colonColon) :
    Accepts file scopedName ts rest fun N e' => e.Same (W.names N) (W.spans file) e' := by
  refine .silent .currentSpan fun start => ?_
  cases hw with
  | identifier hi =>
    refine (accepts_nameOr hi).last fun j => .eatOther hrest ?_
    exact .pure fun N hj => .identifier hj
  | inScope hscope hcolons hinner =>
    refine (accepts_nameOr hscope).step fun a => .eat (by decide) hcolons ?_
    refine (accepts_nameOr hinner).last fun b => .silent (.spanFrom _) fun span => ?_
    exact .pure fun N hb ha => .inScope ha hb
  | _ => cases hname

section Parts

variable (hexpr : AcceptsWithin W file bound expr)

include hexpr

/-- A subexpression that a closing token, a separator or a mark follows. -/
theorem accepts_part {e : Expr} (hg : e.Grouped) (hw : e.Written W ts)
    (hrest : headKind rest ∈ followers) (hlength : (ts ++ rest).length < bound) :
    Accepts file (expr 0) ts rest fun N e' => e.Same (W.names N) (W.spans file) e' :=
  hexpr hg hw Expr.fits_zero (follows_zero hrest) hlength

theorem accepts_moreExpressions {es : List Expr} (hg : ∀ e ∈ es, e.Grouped)
    (hw : Following (Expr.Written W) es ts) (hrest : headKind rest ∈ followers)
    (hcomma : headKind rest ≠ .comma) (hlength : (ts ++ rest).length ≤ bound) :
    Accepts file (moreItems (expr 0)) ts rest fun N es' =>
      Forall₂ (Expr.Same (W.names N) (W.spans file)) es es' := by
  refine Accepts.moreItems hw hcomma fun e he ts' rest' hts' hshort hnext => ?_
  refine accepts_part hexpr (hg e he) hts' ?_ (by omega)
  rcases hnext with h | rfl
  · rw [h]
    decide
  · exact hrest

theorem accepts_expressionList {es : List Expr} (hg : ∀ e ∈ es, e.Grouped)
    (hw : Separated (Expr.Written W) es ts) (hrest : headKind rest ∈ followers)
    (hcomma : headKind rest ≠ .comma) (hlength : (ts ++ rest).length < bound) :
    Accepts file (expressionList expr) ts rest fun N es' =>
      Forall₂ (Expr.Same (W.names N) (W.spans file)) es es' := by
  cases hw with
  | @mk e es ts us he hes =>
    rw [List.append_assoc] at hlength
    have hfirst := accepts_part hexpr (hg e List.mem_cons_self) he (headKind_following hes hrest)
      hlength
    rw [List.length_append] at hlength
    have hmore := accepts_moreExpressions hexpr (fun e' he' => hg e' (List.mem_cons_of_mem e he'))
      hes hrest hcomma (by omega)
    exact hfirst.step fun e' => hmore.last fun es' => .pure fun N hes' he' => .cons he' hes'

theorem accepts_callArguments {args : List Expr} {opening closing : Token}
    (hg : ∀ e ∈ args, e.Grouped) (hopening : opening.kind = .leftParen)
    (hw : Listed (Expr.Written W) args ts) (hclosing : closing.kind = .rightParen)
    (hlength : (opening :: (ts ++ [closing]) ++ rest).length ≤ bound) :
    Accepts file (callArguments expr) (opening :: (ts ++ [closing])) rest fun N args' =>
      Forall₂ (Expr.Same (W.names N) (W.spans file)) args args' := by
  have hnext : headKind ([closing] ++ rest) = .rightParen := hclosing
  refine Accepts.expect (by decide) hopening ?_
  cases hw with
  | none =>
    refine (Accepts.unlessAt_none hnext).bind fun found M hfound => ?_
    subst hfound
    exact .expect (by decide) hclosing (.pure fun _ _ => .nil)
  | some hes =>
    have hhead : headKind (ts ++ ([closing] ++ rest)) ≠ .rightParen := by
      cases hes with
      | mk he _ =>
        rw [List.append_assoc]
        exact headKind_ne he rfl
    have hlist : Accepts file (expressionList expr) ts ([closing] ++ rest) _ :=
      accepts_expressionList hexpr hg hes (by rw [hnext]; decide) (by rw [hnext]; decide)
        (by rw [← List.append_assoc]; exact hlength)
    refine (Accepts.unlessAt hhead hlist).bind fun found M hfound => ?_
    obtain ⟨es, rfl, -⟩ := hfound
    refine .expect (by decide) hclosing (.pure fun N hfound => ?_)
    obtain ⟨es', hes', hsame⟩ := hfound
    cases hes'
    exact hsame

theorem accepts_concat {es : List Expr} {span : Span} {opening closing : Token}
    (hg : ∀ e ∈ es, e.Grouped) (hopening : opening.kind = .leftBrace)
    (hes : Separated (Expr.Written W) es ts) (hclosing : closing.kind = .rightBrace)
    (hlength : (opening :: (ts ++ [closing]) ++ rest).length ≤ bound) :
    Accepts file (braces expr) (opening :: (ts ++ [closing])) rest fun N e' =>
      (Expr.concat es span).Same (W.names N) (W.spans file) e' := by
  have hnext : headKind ([closing] ++ rest) = .rightBrace := hclosing
  have hrest : headKind ([closing] ++ rest) ∈ followers := by rw [hnext]; decide
  refine .silent .currentSpan fun start => .expect (by decide) hopening ?_
  cases hes with
  | @mk e es ts us he hes =>
    have hlength' : ts.length + (us ++ ([closing] ++ rest)).length < bound := by
      simp only [List.length_append, List.length_cons] at hlength ⊢
      omega
    have hfirst := accepts_part hexpr (hg e List.mem_cons_self) he (headKind_following hes hrest)
      (by rwa [List.length_append])
    rw [← List.append_assoc] at hfirst
    have hmore := accepts_moreExpressions hexpr (fun e' he' => hg e' (List.mem_cons_of_mem e he'))
      hes hrest (by rw [hnext]; decide) (by omega)
    have hbrace : headKind (us ++ ([closing] ++ rest)) ≠ .leftBrace := by
      cases hes with
      | nil => rw [List.nil_append, hnext]; decide
      | cons hcomma _ _ => rw [List.cons_append, headKind, hcomma]; decide
    refine .cast ?_ (List.append_assoc ts us [closing])
    refine .eatOther (by rw [List.append_assoc]; exact headKind_ne he rfl) ?_
    refine hfirst.step fun e' => .eatOther (by rwa [List.append_assoc]) ?_
    refine hmore.step fun es' => .expect (by decide) hclosing ?_
    refine .silent (.spanFrom start) fun span' => ?_
    exact .pure fun N hes' he' => .concat (.cons he' hes')

theorem accepts_replicate {count : Expr} {es : List Expr} {span : Span}
    {opening inner closing outer : Token} {ns : List Token} (hgcount : count.Grouped)
    (hg : ∀ e ∈ es, e.Grouped) (hopening : opening.kind = .leftBrace)
    (hcount : count.Written W ns) (hinner : inner.kind = .leftBrace)
    (hes : Separated (Expr.Written W) es ts) (hclosing : closing.kind = .rightBrace)
    (houter : outer.kind = .rightBrace)
    (hlength : (opening :: (ns ++ inner :: (ts ++ [closing, outer])) ++ rest).length ≤ bound) :
    Accepts file (braces expr) (opening :: (ns ++ inner :: (ts ++ [closing, outer]))) rest
      fun N e' => (Expr.replicate count es span).Same (W.names N) (W.spans file) e' := by
  have hbrace : headKind (inner :: (ts ++ [closing, outer]) ++ rest) = .leftBrace := hinner
  have hnext : headKind ([closing, outer] ++ rest) = .rightBrace := hclosing
  simp only [List.length_append, List.length_cons] at hlength
  have hfirst : Accepts file (expr 0) ns (inner :: (ts ++ [closing, outer]) ++ rest) _ :=
    accepts_part hexpr hgcount hcount (by rw [hbrace]; decide)
      (by simp only [List.length_append, List.length_cons]; omega)
  have hlist : Accepts file (expressionList expr) ts ([closing, outer] ++ rest) _ :=
    accepts_expressionList hexpr hg hes (by rw [hnext]; decide) (by rw [hnext]; decide)
      (by simp only [List.length_append, List.length_cons]; omega)
  refine .silent .currentSpan fun start => .expect (by decide) hopening ?_
  refine .eatOther (by rw [List.append_assoc]; exact headKind_ne hcount rfl) ?_
  refine hfirst.step fun count' => .eat (by decide) hinner ?_
  refine hlist.step fun es' => .expect (by decide) hclosing (.expect (by decide) houter ?_)
  refine .silent (.spanFrom start) fun span' => ?_
  exact .pure fun N hes' hcount' => .replicate hcount' hes'

theorem accepts_call {callee : Expr} {args : List Expr} {span : Span} {opening closing : Token}
    {fs : List Token} (hname : callee.isName = true) (hg : ∀ e ∈ args, e.Grouped)
    (hcallee : callee.Written W fs) (hopening : opening.kind = .leftParen)
    (hargs : Listed (Expr.Written W) args ts) (hclosing : closing.kind = .rightParen)
    (hlength : (fs ++ opening :: (ts ++ [closing]) ++ rest).length ≤ bound) :
    Accepts file (nameOrCall expr) (fs ++ opening :: (ts ++ [closing])) rest fun N e' =>
      (Expr.call callee args span).Same (W.names N) (W.spans file) e' := by
  have hnext : headKind (opening :: (ts ++ [closing]) ++ rest) = .leftParen := hopening
  refine .silent .currentSpan fun start => ?_
  have hfirst : Accepts file scopedName fs (opening :: (ts ++ [closing]) ++ rest) _ :=
    accepts_scopedName hname hcallee (by rw [hnext]; decide)
  refine hfirst.step fun callee' => .seesKind hnext ?_
  have hlist : Accepts file (callArguments expr) _ rest _ :=
    accepts_callArguments hexpr hg hopening hargs hclosing
      (by simp only [List.length_append, List.length_cons] at hlength ⊢; omega)
  refine hlist.last fun args' => .silent (.spanFrom start) fun span' => ?_
  exact .pure fun N hargs' hcallee' => .call hcallee' hargs'

theorem accepts_systemCall {name : Identifier} {args : List Expr} {span : Span} {c : Cursor}
    {t : Token} (hg : ∀ e ∈ args, e.Grouped)
    (hw : (Expr.systemCall name args span).Written W (t :: ts)) (hrest : headKind rest ≠ .leftParen)
    (hc : c.rest = t :: ts ++ rest) (hlength : (t :: ts ++ rest).length ≤ bound) :
    Accepts file (systemCall expr c) (t :: ts) rest fun N e' =>
      (Expr.systemCall name args span).Same (W.names N) (W.spans file) e' := by
  cases hw with
  | systemName hkind hname =>
    have hfirst : Accepts file (nameAt c) _ _ _ := Accepts.nameAt hc (by rw [hkind]; decide)
    refine hfirst.last fun i => ?_
    refine (Accepts.whenAt_none hrest).bindLast fun found M hfound => ?_
    subst hfound
    refine .silent (.spanFrom _) fun span' => .pure fun N _ hi => ?_
    exact .systemCall ⟨t.text, hname, hi⟩ .nil
  | @systemCall _ _ _ _ opening closing ts hkind hname hopening hargs hclosing =>
    have hfirst : Accepts file (nameAt c) _ _ _ := Accepts.nameAt hc (by rw [hkind]; decide)
    have hlist : Accepts file (callArguments expr) _ rest _ :=
      accepts_callArguments hexpr hg hopening hargs hclosing (Nat.le_of_succ_le hlength)
    have hnext : headKind (opening :: (ts ++ [closing]) ++ rest) = .leftParen := hopening
    refine .cast (hfirst.step fun i => ?_) List.singleton_append.symm
    refine (Accepts.whenAt hnext hlist).bindLast fun found M hfound => ?_
    obtain ⟨args', rfl, -⟩ := hfound
    refine .silent (.spanFrom _) fun span' => .pure fun N hargs' hi => ?_
    obtain ⟨_, hsome, hargs'⟩ := hargs'
    cases hsome
    exact .systemCall ⟨t.text, hname, hi⟩ hargs'

omit hexpr in
theorem accepts_operand_name {Q : Names → Expr → Prop}
    (hhead : (headKind (ts ++ rest)).isIdentifier = true)
    (h : Accepts file (nameOrCall expr) ts rest Q) : Accepts file (operand expr) ts rest Q := by
  refine .look fun c _ hc => ?_
  rw [current_of_rest hc]
  rcases eq_of_isIdentifier hhead with hkind | hkind
  · rw [hkind]
    exact h
  · rw [hkind]
    exact h

omit hexpr in
/-- A name that is not called. -/
theorem accepts_name {e : Expr} (hname : e.isName = true) (hw : e.Written W ts)
    (hparen : headKind rest ≠ .leftParen) (hcolons : headKind rest ≠ .colonColon) :
    Accepts file (nameOrCall expr) ts rest fun N e' => e.Same (W.names N) (W.spans file) e' := by
  refine .silent .currentSpan fun start => ?_
  refine (accepts_scopedName hname hw hcolons).last fun e' => .seesOther hparen ?_
  exact .pure fun N he' => he'

theorem accepts_operand {e : Expr} (hoperand : isOperand e = true) (hg : e.Grouped)
    (hw : e.Written W ts) (hclosed : e.Closed (headKind rest)) (hends : EndsName (headKind rest))
    (hlength : (ts ++ rest).length ≤ bound) :
    Accepts file (operand expr) ts rest fun N e' => e.Same (W.names N) (W.spans file) e' := by
  have hwritten := hw
  cases hw with
  | identifier hi =>
    obtain ⟨t, ts, rfl, ht⟩ := hi.exists_head
    exact accepts_operand_name ht (accepts_name rfl hwritten hends.1 hends.2.1)
  | inScope hi _ _ =>
    obtain ⟨t, ts, rfl, ht⟩ := hi.exists_head
    exact accepts_operand_name ht (accepts_name rfl hwritten hends.1 hends.2.1)
  | call hcallee hopening hargs hclosing =>
    cases hg with
    | call hname hg =>
      refine accepts_operand_name ?_ (accepts_call hexpr hname hg hcallee hopening hargs hclosing
        hlength)
      cases hcallee with
      | identifier hi =>
        obtain ⟨t, ts, rfl, ht⟩ := hi.exists_head
        exact ht
      | inScope hi _ _ =>
        obtain ⟨t, ts, rfl, ht⟩ := hi.exists_head
        exact ht
      | _ => cases hname
  | literal ht hleaf =>
    refine .look fun c hfile hc => ?_
    have hspan := currentSpan_of_rest hc hfile
    have hcurrent := current_of_rest hc
    rcases ht with ht | ht | ht
    · rw [hcurrent.trans ht]
      exact .take (by decide) ht (.pure fun N => .literal ⟨_, hleaf, hspan⟩)
    · rw [hcurrent.trans ht]
      exact .take (by decide) ht (.pure fun N => .literal ⟨_, hleaf, hspan⟩)
    · rw [hcurrent.trans ht]
      exact .take (by decide) ht (.pure fun N => .literal ⟨_, hleaf, hspan⟩)
  | realLiteral ht hleaf =>
    refine .look fun c hfile hc => ?_
    have hspan := currentSpan_of_rest hc hfile
    rw [(current_of_rest hc).trans ht]
    exact .take (by decide) ht (.pure fun N => .realLiteral ⟨_, hleaf, hspan⟩)
  | stringLiteral ht hleaf =>
    refine .look fun c hfile hc => ?_
    have hspan := currentSpan_of_rest hc hfile
    rw [(current_of_rest hc).trans ht]
    exact .take (by decide) ht (.pure fun N => .stringLiteral ⟨_, hleaf, hspan⟩)
  | concat hopening hes hclosing =>
    cases hg with
    | concat _ hg =>
      refine .look fun c _ hc => ?_
      rw [(current_of_rest hc).trans hopening]
      exact accepts_concat hexpr hg hopening hes hclosing hlength
  | replicate hopening hcount hinner hes hclosing houter =>
    cases hg with
    | replicate hgcount _ hg =>
      refine .look fun c _ hc => ?_
      rw [(current_of_rest hc).trans hopening]
      exact accepts_replicate hexpr hgcount hg hopening hcount hinner hes hclosing houter hlength
  | @unary op inner span t ts ht hinner =>
    cases hg with
    | unary hoperator hternary hg =>
      refine .look fun c _ hc => ?_
      rw [(current_of_rest hc).trans ht, Kind.unaryOp?_kind]
      refine .take (by cases op <;> decide) ht ?_
      have hpart := hexpr hg hinner (Expr.fits_operand hoperator hternary)
        ⟨hclosed _ rfl, hends⟩ hlength
      refine hpart.last fun inner' => .silent (.merge _ _) fun span' => ?_
      exact .pure fun N hinner' => .unary hinner'
  | systemName ht _ =>
    cases hg with
    | systemCall hg =>
      refine .look fun c _ hc => ?_
      rw [(current_of_rest hc).trans ht]
      exact accepts_systemCall hexpr hg hwritten hends.1 hc hlength
  | systemCall ht _ _ _ _ =>
    cases hg with
    | systemCall hg =>
      refine .look fun c _ hc => ?_
      rw [(current_of_rest hc).trans ht]
      exact accepts_systemCall hexpr hg hwritten hends.1 hc hlength
  | @paren inner span opening closing ts hopening hinner hclosing =>
    cases hg with
    | paren hg =>
      have hnext : headKind ([closing] ++ rest) = .rightParen := hclosing
      refine .look fun c _ hc => ?_
      rw [(current_of_rest hc).trans hopening]
      have hpart : Accepts file (expr 0) ts ([closing] ++ rest) _ :=
        accepts_part hexpr hg hinner (by rw [hnext]; decide)
          (by rw [← List.append_assoc]; exact hlength)
      refine .take (by decide) hopening (hpart.step fun inner' => .expect (by decide) hclosing ?_)
      exact .silent (.spanFrom _) fun span' => .pure fun N hinner' => .paren hinner'
  | _ => cases hoperand

/-- The second part of a select, from the mark before it on. -/
theorem accepts_second (build : Expr → Span → Expr) {e : Expr} {kind : Kind}
    {mark closing : Token} {start : Span} (hsolid : kind.Solid) (hmark : mark.kind = kind) (hg : e.Grouped)
    (hw : e.Written W ts) (hclosing : closing.kind = .rightBracket)
    (hlength : (ts ++ ([closing] ++ rest)).length < bound) :
    Accepts file
      (do
        take kind
        let e ← expr 0
        expect .rightBracket
        return build e (← spanFrom start))
      (mark :: (ts ++ [closing])) rest
      fun N r => ∃ e' span, r = build e' span ∧ e.Same (W.names N) (W.spans file) e' := by
  have hnext : headKind ([closing] ++ rest) = .rightBracket := hclosing
  have hpart := accepts_part hexpr hg hw (by rw [hnext]; decide) hlength
  refine .take hsolid hmark (hpart.step fun e' => .expect (by decide) hclosing ?_)
  exact .silent (.spanFrom start) fun span => .pure fun N he' => ⟨e', span, rfl, he'⟩

section Select

variable {base base' first second : Expr} {span : Span} {opening mark closing : Token}
  {ps ws : List Token} (hopening : opening.kind = .leftBracket)
  (hclosing : closing.kind = .rightBracket)

include hopening hclosing

theorem accepts_index (hg : first.Grouped) (hw : first.Written W ps)
    (hlength : (opening :: (ps ++ [closing]) ++ rest).length ≤ bound) :
    Accepts file (selectOf expr base') (opening :: (ps ++ [closing])) rest fun N e' =>
      base.Same (W.names N) (W.spans file) base' →
      (Expr.index base first span).Same (W.names N) (W.spans file) e' := by
  have hnext : headKind ([closing] ++ rest) = .rightBracket := hclosing
  have hpart : Accepts file (expr 0) ps ([closing] ++ rest) _ :=
    accepts_part hexpr hg hw (by rw [hnext]; decide) (by rw [← List.append_assoc]; exact hlength)
  refine .expect (by decide) hopening (hpart.step fun first' => .current ?_)
  rw [hnext]
  refine .expect (by decide) hclosing (.silent (.spanFrom _) fun span' => ?_)
  exact .pure fun N hfirst hbase => .index hbase hfirst

theorem accepts_rangeSelect (hgfirst : first.Grouped) (hfirst : first.Written W ps)
    (hmark : mark.kind = .colon) (hgsecond : second.Grouped) (hsecond : second.Written W ws)
    (hlength : (opening :: (ps ++ mark :: (ws ++ [closing])) ++ rest).length ≤ bound) :
    Accepts file (selectOf expr base') (opening :: (ps ++ mark :: (ws ++ [closing]))) rest
      fun N e' => base.Same (W.names N) (W.spans file) base' →
        (Expr.rangeSelect base first second span).Same (W.names N) (W.spans file) e' := by
  have hnext : headKind (mark :: (ws ++ [closing]) ++ rest) = .colon := hmark
  simp only [List.length_append, List.length_cons] at hlength
  have hpart : Accepts file (expr 0) ps (mark :: (ws ++ [closing]) ++ rest) _ :=
    accepts_part hexpr hgfirst hfirst (by rw [hnext]; decide)
      (by simp only [List.length_append, List.length_cons]; omega)
  refine .expect (by decide) hopening (hpart.step fun first' => .current ?_)
  rw [hnext]
  have hshort : (ws ++ ([closing] ++ rest)).length < bound := by
    simp only [List.length_append, List.length_cons]
    omega
  refine (accepts_second hexpr (.rangeSelect base' first') (by decide) hmark hgsecond hsecond
    hclosing hshort).mono fun N e' he' hfirst hbase => ?_
  obtain ⟨second', span', rfl, hsecond⟩ := he'
  exact .rangeSelect hbase hfirst hsecond

theorem accepts_partSelect {ascending : Bool} (hgfirst : first.Grouped)
    (hfirst : first.Written W ps)
    (hmark : mark.kind = if ascending then .plusColon else .minusColon)
    (hgsecond : second.Grouped) (hsecond : second.Written W ws)
    (hlength : (opening :: (ps ++ mark :: (ws ++ [closing])) ++ rest).length ≤ bound) :
    Accepts file (selectOf expr base') (opening :: (ps ++ mark :: (ws ++ [closing]))) rest
      fun N e' => base.Same (W.names N) (W.spans file) base' →
        (Expr.partSelect base first ascending second span).Same (W.names N) (W.spans file) e' := by
  have hnext : headKind (mark :: (ws ++ [closing]) ++ rest) = _ := hmark
  simp only [List.length_append, List.length_cons] at hlength
  have hpart : Accepts file (expr 0) ps (mark :: (ws ++ [closing]) ++ rest) _ :=
    accepts_part hexpr hgfirst hfirst (by rw [hnext]; cases ascending <;> decide)
      (by simp only [List.length_append, List.length_cons]; omega)
  refine .expect (by decide) hopening (hpart.step fun first' => .current ?_)
  rw [hnext]
  have hshort : (ws ++ ([closing] ++ rest)).length < bound := by
    simp only [List.length_append, List.length_cons]
    omega
  cases ascending with
  | true =>
    refine (accepts_second hexpr (.partSelect base' first' true) (by decide) hmark hgsecond hsecond
      hclosing hshort).mono fun N e' he' hfirst hbase => ?_
    obtain ⟨second', span', rfl, hsecond⟩ := he'
    exact .partSelect hbase hfirst hsecond
  | false =>
    refine (accepts_second hexpr (.partSelect base' first' false) (by decide) hmark hgsecond
      hsecond hclosing hshort).mono fun N e' he' hfirst hbase => ?_
    obtain ⟨second', span', rfl, hsecond⟩ := he'
    exact .partSelect hbase hfirst hsecond

end Select

omit hexpr in
theorem accepts_dottedName {i : Identifier} (h : i.Dotted W ts) :
    Accepts file dottedName ts rest fun N j => W.names N i.name j.name := by
  cases h with
  | mk hdot hi => exact .take (by decide) hdot (accepts_nameOr hi)

omit hexpr in
/-- The names behind dots, after the first name. -/
theorem accepts_memberOf (first : Identifier) {first' : Identifier} {more : List Identifier}
    (span : Span) (hmore : Strung (Identifier.Dotted W) more ts) (hdot : headKind rest ≠ .dot) :
    Accepts file (memberOf (.identifier first')) ts rest fun N e' =>
      (Expr.identifier first).Same (W.names N) (W.spans file) (.identifier first') →
      (Expr.hierarchical (first :: more) span).Same (W.names N) (W.spans file) e' := by
  have hitems : Accepts file (itemsAt .dot dottedName) ts rest fun N more' =>
      Forall₂ (fun i j : Identifier => W.names N i.name j.name) more more' := by
    refine .itemsAt hmore (by decide) hdot (fun i ts' rest' hi => ?_) ?_
    · cases hi with
      | mk hdot _ => exact hdot
    · exact fun i _ ts' rest' hi _ _ => accepts_dottedName hi
  refine hitems.last fun more' => .silent (.spanFrom _) fun span' => .pure fun N hmore' hfirst => ?_
  cases hfirst with
  | identifier hfirst => exact .hierarchical (.cons hfirst hmore')

section Extend

variable {least b : Nat} {left : Expr} {us : List Token} {Q : Names → Expr → Prop}

omit hexpr in
theorem accepts_extend_stop (hstops : Stops least (headKind rest)) (hQ : ∀ N, Q N left) :
    Accepts file (extend expr least b left) [] rest Q := by
  cases b with
  | zero => exact .pure hQ
  | succ b =>
    refine .current ?_
    rw [List.nil_append]
    split
    next hkind =>
      rw [if_neg (hstops.question hkind)]
      exact .pure hQ
    next hkind => exact absurd hkind hstops.bracket
    next hkind => exact absurd hkind hstops.dot
    next =>
      split
      next => exact .pure hQ
      next op hop =>
        rw [if_pos (hstops.operator op hop)]
        exact .pure hQ

omit hexpr in
theorem accepts_extend_operator {op : BinaryOp} (hkind : headKind (ts ++ rest) = op.kind)
    (hpower : least ≤ op.leftPower)
    (h : Accepts file
      (do
        take op.kind
        let right ← expr op.rightPower
        let span ← merge left.span right.span
        extend expr least b (.binary left op right span)) ts rest Q) :
    Accepts file (extend expr least (b + 1) left) ts rest Q := by
  refine .current ?_
  rw [hkind]
  split
  next hother => exact absurd hother (by cases op <;> decide)
  next hother => exact absurd hother (by cases op <;> decide)
  next hother => exact absurd hother (by cases op <;> decide)
  next =>
    rw [Kind.binaryOp?_kind]
    dsimp only
    rw [if_neg (Nat.not_lt.mpr hpower)]
    exact h

/-- The extension of an expression `left` goes on to the tokens `us` with `left` as it was read. -/
def Continues (W : Writing) (file : Nat) (expr : Nat → ParserM Expr) (least : Nat) (left : Expr)
    (us rest : List Token) (Q : Names → Expr → Prop) : Prop :=
  ∀ left' b, (us ++ rest).length < b →
    Accepts file (extend expr least b left') us rest fun N e =>
      left.Same (W.names N) (W.spans file) left' → Q N e

omit hexpr in
theorem continues_select {base : Expr} {ss : List Token}
    (hss : headKind (ss ++ us ++ rest) = .leftBracket) (hpos : 0 < ss.length)
    (hselect : ∀ base', Accepts file (selectOf expr base') ss (us ++ rest) fun N e' =>
      base.Same (W.names N) (W.spans file) base' → left.Same (W.names N) (W.spans file) e')
    (hnext : Continues W file expr least left us rest Q) :
    Continues W file expr least base (ss ++ us) rest Q := by
  intro base' b hb
  simp only [List.length_append] at hb
  obtain ⟨b, rfl⟩ : ∃ n, b = n + 1 := ⟨b - 1, by omega⟩
  refine .current ?_
  rw [hss]
  refine (hselect base').step fun e' => ?_
  refine (hnext e' b (by rw [List.length_append]; omega)).mono fun N d hd he' hbase => ?_
  exact hd (he' hbase)

theorem continues_binary {op : BinaryOp} {right : Expr} {span : Span} {t : Token} {rs : List Token}
    (hpower : least ≤ op.leftPower) (ht : t.kind = op.kind) (hg : right.Grouped)
    (hw : right.Written W rs) (hfits : right.Fits op.rightPower)
    (hfollows : Follows op.rightPower (headKind (us ++ rest)))
    (hlength : (rs ++ (us ++ rest)).length < bound)
    (hnext : Continues W file expr least (.binary left op right span) us rest Q) :
    Continues W file expr least left (t :: rs ++ us) rest Q := by
  intro left' b hb
  simp only [List.length_append, List.length_cons] at hb
  obtain ⟨b, rfl⟩ : ∃ n, b = n + 1 := ⟨b - 1, by omega⟩
  refine accepts_extend_operator ht hpower (.take (by cases op <;> decide) ht ?_)
  refine (hexpr hg hw hfits hfollows hlength).step fun right' => .silent (.merge _ _) fun span' => ?_
  refine (hnext _ b (by rw [List.length_append]; omega)).mono fun N d hd hright hleft => ?_
  exact hd (.binary hleft hright)

theorem continues_ternary {thenExpr elseExpr : Expr} {span : Span} {question colon : Token}
    {xs ys : List Token} (hquestion : question.kind = .question) (hgthen : thenExpr.Grouped)
    (hthen : thenExpr.Written W xs) (hcolon : colon.kind = .colon) (hgelse : elseExpr.Grouped)
    (helse : elseExpr.Written W ys) (hfollows : Follows 0 (headKind (us ++ rest)))
    (hlength : (xs ++ (colon :: ys ++ (us ++ rest))).length < bound)
    (hnext : Continues W file expr 0 (.ternary left thenExpr elseExpr span) us rest Q) :
    Continues W file expr 0 left (question :: (xs ++ colon :: ys) ++ us) rest Q := by
  have hmark : headKind (colon :: ys ++ us ++ rest) = .colon := hcolon
  have hstart : headKind (question :: (xs ++ colon :: ys) ++ us ++ rest) = .question := hquestion
  simp only [List.length_append, List.length_cons] at hlength
  have hthen' : Accepts file (expr 0) xs (colon :: ys ++ us ++ rest) _ :=
    accepts_part hexpr hgthen hthen (by rw [hmark]; decide)
      (by simp only [List.length_append, List.length_cons]; omega)
  have helse' := hexpr hgelse helse Expr.fits_zero hfollows
    (by simp only [List.length_append]; omega)
  intro left' b hb
  simp only [List.length_append, List.length_cons] at hb
  obtain ⟨b, rfl⟩ : ∃ n, b = n + 1 := ⟨b - 1, by omega⟩
  refine .current ?_
  rw [hstart]
  dsimp only
  rw [if_pos rfl]
  refine .take (by decide) hquestion (.cast ?_ (List.append_assoc xs (colon :: ys) us))
  refine hthen'.step fun then' => .expect (by decide) hcolon (helse'.step fun else' => ?_)
  refine .silent (.merge _ _) fun span' => ?_
  refine (hnext _ b (by rw [List.length_append]; omega)).mono fun N d hd he ht hleft => ?_
  exact hd (.ternary hleft ht he)

omit hexpr in
/-- Names joined by dots: the first is an operand, and the others are added to it at once. -/
theorem accepts_dotted {first : Identifier} {more : List Identifier} {span : Span}
    {ds : List Token} (hfirst : first.Written W ts) (hmore : Strung (Identifier.Dotted W) more ds)
    (hparts : 2 ≤ (first :: more).length) (hends : EndsName (headKind (us ++ rest)))
    (hlength : (ts ++ ds ++ us ++ rest).length ≤ bound)
    (hnext : Continues W file expr least (.hierarchical (first :: more) span) us rest Q) :
    Accepts file (operand expr >>= extend expr least bound) (ts ++ ds ++ us) rest Q := by
  obtain ⟨dot, ds', hds, hdot⟩ : ∃ dot ds', ds = dot :: ds' ∧ dot.kind = .dot := by
    cases hmore with
    | nil => exact absurd hparts (by simp)
    | cons hdotted _ =>
      cases hdotted with
      | mk hdot _ => exact ⟨_, _, rfl, hdot⟩
  have hss : headKind (ds ++ us ++ rest) = .dot := by rw [hds]; exact hdot
  obtain ⟨t, ts, rfl, ht⟩ := hfirst.exists_head
  have hname : Accepts file (operand expr) (t :: ts) (ds ++ us ++ rest) fun N e' =>
      (Expr.identifier first).Same (W.names N) (W.spans file) e' := by
    refine accepts_operand_name ht (accepts_name rfl (.identifier hfirst) ?_ ?_)
    · rw [hss]
      decide
    · rw [hss]
      decide
  have hpos : 0 < ds.length := by rw [hds]; exact Nat.succ_pos _
  simp only [List.length_append, List.length_cons] at hlength
  obtain ⟨b, rfl⟩ : ∃ n, bound = n + 1 := ⟨bound - 1, by omega⟩
  refine .cast (hname.bind fun base' M hbase' => ?_) (List.append_assoc (t :: ts) ds us)
  cases hbase' with
  | identifier _ =>
    refine .current ?_
    rw [hss]
    refine (accepts_memberOf first span hmore hends.2.2).step fun e' => ?_
    refine (hnext e' b ?_).mono fun N d hd he' hfirst' => hd (he' hfirst')
    rw [List.length_append]
    omega

/-- The left side of a tree. -/
theorem accepts_spine {e : Expr} (hg : e.Grouped) (hw : e.Written W ts) (hfits : e.Fits least)
    (hclosed : e.Closed (headKind (us ++ rest))) (hends : EndsName (headKind (us ++ rest)))
    (hlength : (ts ++ us ++ rest).length ≤ bound)
    (hnext : Continues W file expr least e us rest Q) :
    Accepts file (operand expr >>= extend expr least bound) (ts ++ us) rest Q := by
  induction hn : ts.length using Nat.strong_induction_on generalizing e ts us with
  | _ n ih =>
  subst hn
  -- What stands on the left of the last thing added is shorter, and is followed by that thing.
  have grow : ∀ {base : Expr} {bs ss : List Token}, ts = bs ++ ss → 0 < ss.length →
      base.Grouped → base.Written W bs → base.Fits least →
      base.Closed (headKind (ss ++ us ++ rest)) → EndsName (headKind (ss ++ us ++ rest)) →
      Continues W file expr least base (ss ++ us) rest Q →
      Accepts file (operand expr >>= extend expr least bound) (ts ++ us) rest Q := by
    intro base bs ss hts hpos hgbase hbase hfits hclosed hends hnext
    subst hts
    rw [List.append_assoc bs ss us] at hlength
    refine .cast ?_ (List.append_assoc bs ss us)
    exact ih bs.length (by rw [List.length_append]; omega) hgbase hbase hfits hclosed hends hlength
      hnext rfl
  by_cases hoperand : isOperand e = true
  · have hpos : 0 < ts.length := by
      obtain ⟨t, ts, rfl, -⟩ := hw.exists_head
      exact Nat.succ_pos _
    rw [List.append_assoc] at hlength
    refine (accepts_operand hexpr hoperand hg hw hclosed hends hlength).step fun e' => ?_
    exact hnext e' bound (by rw [List.length_append] at hlength; omega)
  · cases hw with
    | @index base place span opening closing bs ps hbase hopening hplace hclosing =>
      cases hg with
      | index hisBase hgbase hgplace =>
        have hss : headKind (opening :: (ps ++ [closing]) ++ us ++ rest) = .leftBracket := hopening
        refine grow rfl (Nat.succ_pos _) hgbase hbase hisBase.fits hisBase.closed
          (by rw [hss]; decide) (continues_select hss (Nat.succ_pos _) (fun base' => ?_) hnext)
        refine accepts_index hexpr hopening hclosing hgplace hplace ?_
        simp only [List.length_append, List.length_cons] at hlength ⊢
        omega
    | @rangeSelect base msb lsb span opening colon closing bs ms ls hbase hopening hmsb hcolon hlsb
        hclosing =>
      cases hg with
      | rangeSelect hisBase hgbase hgmsb hglsb =>
        have hss : headKind (opening :: (ms ++ colon :: (ls ++ [closing])) ++ us ++ rest) =
            .leftBracket := hopening
        refine grow rfl (Nat.succ_pos _) hgbase hbase hisBase.fits hisBase.closed
          (by rw [hss]; decide) (continues_select hss (Nat.succ_pos _) (fun base' => ?_) hnext)
        refine accepts_rangeSelect hexpr hopening hclosing hgmsb hmsb hcolon hglsb hlsb ?_
        simp only [List.length_append, List.length_cons] at hlength ⊢
        omega
    | @partSelect base place width ascending span opening mark closing bs ps ws hbase hopening
        hplace hmark hwidth hclosing =>
      cases hg with
      | partSelect hisBase hgbase hgplace hgwidth =>
        have hss : headKind (opening :: (ps ++ mark :: (ws ++ [closing])) ++ us ++ rest) =
            .leftBracket := hopening
        refine grow rfl (Nat.succ_pos _) hgbase hbase hisBase.fits hisBase.closed
          (by rw [hss]; decide) (continues_select hss (Nat.succ_pos _) (fun base' => ?_) hnext)
        refine accepts_partSelect hexpr hopening hclosing hgplace hplace hmark hgwidth hwidth ?_
        simp only [List.length_append, List.length_cons] at hlength ⊢
        omega
    | @binary left right op span t ls rs hleft ht hright =>
      cases hg with
      | binary hltern hrtern hlop hrop hgleft hgright =>
        have hss : headKind (t :: rs ++ us ++ rest) = op.kind := ht
        refine grow rfl (Nat.succ_pos _) hgleft hleft
          (Expr.fits_left (hfits.operator op rfl) hltern hlop) ?_ ?_
          (continues_binary hexpr (hfits.operator op rfl) ht hgright hright ?_
            ⟨hclosed _ rfl, hends⟩ ?_ hnext)
        · rw [hss]
          exact Expr.closed_left hltern hlop
        · rw [hss]
          cases op <;> decide
        · exact ⟨fun h => absurd (hrtern.symm.trans h) Bool.false_ne_true, hrop⟩
        · simp only [List.length_append, List.length_cons] at hlength ⊢
          omega
    | @ternary condition thenExpr elseExpr span question colon cs xs ys hcond hquestion hthen hcolon
        helse =>
      cases hg with
      | ternary hctern hgcond hgthen hgelse =>
        have hss : headKind (question :: (xs ++ colon :: ys) ++ us ++ rest) = .question := hquestion
        obtain rfl : least = 0 := hfits.ternary rfl
        refine grow rfl (Nat.succ_pos _) hgcond hcond Expr.fits_zero ?_ (by rw [hss]; decide)
          (continues_ternary hexpr hquestion hgthen hthen hcolon hgelse helse
            ⟨hclosed _ rfl, hends⟩ ?_ hnext)
        · rw [hss]
          exact Expr.closed_condition hctern
        · simp only [List.length_append, List.length_cons] at hlength ⊢
          omega
    | hierarchical hfirst hmore =>
      cases hg with
      | hierarchical hparts => exact accepts_dotted hfirst hmore hparts hends hlength hnext
    | _ => exact absurd rfl hoperand

end Extend

end Parts

theorem accepts_expressionWithin (W : Writing) (file bound : Nat) :
    AcceptsWithin W file bound (expressionWithin bound) := by
  induction bound with
  | zero => exact fun _ _ _ _ hlength => absurd hlength (Nat.not_lt_zero _)
  | succ bound ih =>
    intro e ts rest least hg hw hfits hfollows hlength
    refine .cast ?_ (List.append_nil ts).symm
    refine accepts_spine ih hg hw hfits (hfits.closed hfollows.stops) hfollows.endsName
      (by simpa using Nat.le_of_lt_succ hlength) fun left' b _ => ?_
    exact accepts_extend_stop hfollows.stops fun N hsame => hsame

/-- A whole expression. -/
theorem accepts_expression {e : Expr} (hg : e.Grouped) (hw : e.Written W ts)
    (hrest : headKind rest ∈ followers) :
    Accepts file expression ts rest fun N e' => e.Same (W.names N) (W.spans file) e' :=
  .remaining (accepts_expressionWithin W file _ hg hw Expr.fits_zero (follows_zero hrest)
    (Nat.lt_succ_self _))

end Parser

end Netlist
