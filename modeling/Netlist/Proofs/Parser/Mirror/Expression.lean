import Netlist.Proofs.Parser.Mirror.State

/-!
Expression parsers mirror themselves. The parts are written over the parser of subexpressions, so
each lemma assumes it of that parser; the bound on the nesting then carries the induction.
-/
namespace Netlist.Parser

open List (Forall₂)
open Syntax

variable {F : Frame} {expr expr' : Nat → ParserM Expr}

/-- Two parsers of subexpressions that mirror each other for every power. -/
def MirrorExprs (F : Frame) (expr expr' : Nat → ParserM Expr) : Prop :=
  ∀ least, Mirror F (Expr.Alike F) (expr least) (expr' least)

theorem mirror_expressionList (h : MirrorExprs F expr expr') :
    Mirror F (Forall₂ (Expr.Alike F)) (expressionList expr) (expressionList expr') := by
  refine Mirror.bind (h 0) fun e e' he => ?_
  exact Mirror.bind (mirror_moreItems (h 0)) fun es es' hes => .pure (.cons he hes)

private theorem getD_alike {o o' : Option (List Expr)}
    (h : Option.Rel (Forall₂ (Expr.Alike F)) o o') :
    Forall₂ (Expr.Alike F) (o.getD []) (o'.getD []) := by
  cases h with
  | none => exact .nil
  | some hes => exact hes

theorem mirror_callArguments (h : MirrorExprs F expr expr') :
    Mirror F (Forall₂ (Expr.Alike F)) (callArguments expr) (callArguments expr') := by
  refine Mirror.bind (mirror_expect nofun) fun _ _ _ => ?_
  refine Mirror.bind (mirror_unlessAt .rightParen (mirror_expressionList h)) ?_
  intro args args' hargs
  refine Mirror.bind (mirror_expect nofun) fun _ _ _ => ?_
  exact .pure (getD_alike hargs)

theorem mirror_braces (h : MirrorExprs F expr expr') :
    Mirror F (Expr.Alike F) (braces expr) (braces expr') := by
  refine Mirror.bind mirror_currentSpan fun start start' hstart => ?_
  refine Mirror.bind (mirror_expect nofun) fun _ _ _ => ?_
  refine Mirror.bindEq (.eat .rightBrace nofun) fun empty => ?_
  cases empty with
  | true =>
    refine Mirror.bind (mirror_spanFrom hstart) fun s s' hs => ?_
    refine Mirror.bind (.reportAt nofun hs) fun _ _ hbroken => ?_
    exact .pure (.error (F.flaw_of_broken hbroken) hstart)
  | false =>
    refine Mirror.bind (h 0) fun first first' hfirst => ?_
    refine Mirror.bindEq (.eat .leftBrace nofun) fun replicated => ?_
    cases replicated with
    | true =>
      refine Mirror.bind (mirror_expressionList h) fun es es' hes => ?_
      refine Mirror.bind (mirror_expect nofun) fun _ _ _ => ?_
      refine Mirror.bind (mirror_expect nofun) fun _ _ _ => ?_
      exact Mirror.bind (mirror_spanFrom hstart) fun s s' hs => .pure (.replicate hfirst hes hs)
    | false =>
      refine Mirror.bind (mirror_moreItems (h 0)) fun es es' hes => ?_
      refine Mirror.bind (mirror_expect nofun) fun _ _ _ => ?_
      refine Mirror.bind (mirror_spanFrom hstart) fun s s' hs => ?_
      exact .pure (.concat (.cons hfirst hes) hs)

theorem mirror_scopedName : Mirror F (Expr.Alike F) scopedName scopedName := by
  refine Mirror.bind mirror_currentSpan fun start start' hstart => ?_
  refine Mirror.bind mirror_expectIdentifier fun first first' hfirst => ?_
  refine Mirror.bindEq (.eat .colonColon nofun) fun hasScope => ?_
  cases hasScope with
  | true =>
    refine Mirror.bind mirror_expectIdentifier fun inner inner' hinner => ?_
    exact Mirror.bind (mirror_spanFrom hstart) fun s s' hs => .pure (.scoped hfirst hinner hs)
  | false => exact .pure (.identifier hfirst)

theorem mirror_nameOrCall (h : MirrorExprs F expr expr') :
    Mirror F (Expr.Alike F) (nameOrCall expr) (nameOrCall expr') := by
  refine Mirror.bind mirror_currentSpan fun start start' hstart => ?_
  refine Mirror.bind mirror_scopedName fun name name' hname => ?_
  refine Mirror.bindEq (mirror_sees .leftParen) fun called => ?_
  cases called with
  | true =>
    refine Mirror.bind (mirror_callArguments h) fun args args' hargs => ?_
    exact Mirror.bind (mirror_spanFrom hstart) fun s s' hs => .pure (.call hname hargs hs)
  | false => exact .pure hname

theorem mirror_systemCall (h : MirrorExprs F expr expr') {c c' : Cursor} (hc : F.Cursors c c')
    (hkind : c.current = .systemIdentifier) :
    Mirror F (Expr.Alike F) (systemCall expr c) (systemCall expr' c') := by
  refine Mirror.bind (mirror_nameAt hc (.inr hkind)) fun name name' hname => ?_
  rw [hkind] at hname
  refine Mirror.bind (mirror_whenAt .leftParen (mirror_callArguments h)) fun args args' hargs => ?_
  refine Mirror.bind (mirror_spanFrom hc.currentSpan) fun s s' hs => ?_
  exact .pure (.systemCall hname (getD_alike hargs) hs)

/-- The words that open units are no operators. -/
theorem isUnitStart_of_unaryOp? {kind : Kind} {op : UnaryOp} (h : kind.unaryOp? = some op) :
    kind.isUnitStart = false := by
  rw [← Kind.kind_of_unaryOp? h]
  cases op <;> rfl

theorem isUnitStart_of_binaryOp? {kind : Kind} {op : BinaryOp} (h : kind.binaryOp? = some op) :
    kind.isUnitStart = false := by
  rw [← Kind.kind_of_binaryOp? h]
  cases op <;> rfl

private theorem mirror_number {c c' : Cursor} (hc : F.Cursors c c') (hnumber : c.current.IsNumber) :
    Mirror F (Expr.Alike F) (do take c.current; return .literal c.currentSpan)
      (do take c.current; return .literal c'.currentSpan) := by
  have hopens : c.current.isUnitStart = true → F.opens := by
    rcases hnumber with hkind | hkind | hkind <;> rw [hkind] <;> nofun
  have hne : c.current ≠ .eof := by
    rcases hnumber with hkind | hkind | hkind <;> rw [hkind] <;> nofun
  refine Mirror.bindEq (mirror_take hopens) fun _ => ?_
  exact .pure (.literal hnumber (hc.leaf hne) hc.currentSpan)

theorem mirror_operand (h : MirrorExprs F expr expr') :
    Mirror F (Expr.Alike F) (operand expr) (operand expr') := by
  refine Mirror.bind .look fun c c' hc => ?_
  have hstart := hc.currentSpan
  have hleaf := hc.leaf
  dsimp only
  rw [← hc.current]
  split
  next op hop =>
    have hopens : c.current.isUnitStart = true → F.opens := by
      rw [isUnitStart_of_unaryOp? hop]
      nofun
    refine Mirror.bindEq (mirror_take hopens) fun _ => ?_
    refine Mirror.bind (h _) fun inner inner' hinner => ?_
    refine Mirror.bind (mirror_merge hstart hinner.span) fun s s' hs => ?_
    exact .pure (.unary hinner hs)
  next =>
    split
    next hkind => exact hkind ▸ mirror_number hc (.inl hkind)
    next hkind => exact hkind ▸ mirror_number hc (.inr (.inl hkind))
    next hkind => exact hkind ▸ mirror_number hc (.inr (.inr hkind))
    next hkind =>
      rw [hkind] at hleaf
      refine Mirror.bindEq (mirror_take nofun) fun _ => ?_
      exact .pure (.realLiteral (hleaf nofun) hstart)
    next hkind =>
      rw [hkind] at hleaf
      refine Mirror.bindEq (mirror_take nofun) fun _ => ?_
      exact .pure (.stringLiteral (hleaf nofun) hstart)
    next hkind =>
      refine Mirror.bindEq (mirror_take nofun) fun _ => ?_
      exact .pure (.error (hc.flaw hkind) hstart)
    next =>
      refine Mirror.bindEq (mirror_take nofun) fun _ => ?_
      refine Mirror.bind (h 0) fun inner inner' hinner => ?_
      refine Mirror.bind (mirror_expect nofun) fun _ _ _ => ?_
      exact Mirror.bind (mirror_spanFrom hstart) fun s s' hs => .pure (.paren hinner hs)
    next => exact mirror_braces h
    next hkind => exact mirror_systemCall h hc hkind
    next => exact mirror_nameOrCall h
    next => exact mirror_nameOrCall h
    next => exact .noOperand

section Extension

variable {base base' : Expr}

private theorem mirror_width (h : MirrorExprs F expr expr') (hbase : base.Alike F base')
    {kind : Kind} (hkind : kind.isUnitStart = false) {f f' : Expr → Span → Expr}
    (hf : ∀ e e' s s', e.Alike F e' → F.span s s' → Expr.Alike F (f e s) (f' e' s')) :
    Mirror F (Expr.Alike F)
      (do
        take kind
        let e ← expr 0
        expect .rightBracket
        return f e (← spanFrom base.span))
      (do
        take kind
        let e ← expr' 0
        expect .rightBracket
        return f' e (← spanFrom base'.span)) := by
  refine Mirror.bindEq (mirror_take (by rw [hkind]; nofun)) fun _ => ?_
  refine Mirror.bind (h 0) fun e e' he => ?_
  refine Mirror.bind (mirror_expect nofun) fun _ _ _ => ?_
  exact Mirror.bind (mirror_spanFrom hbase.span) fun s s' hs => .pure (hf e e' s s' he hs)

theorem mirror_selectOf (h : MirrorExprs F expr expr') (hbase : base.Alike F base') :
    Mirror F (Expr.Alike F) (selectOf expr base) (selectOf expr' base') := by
  refine Mirror.bind (mirror_expect nofun) fun _ _ _ => ?_
  refine Mirror.bind (h 0) fun first first' hfirst => ?_
  refine Mirror.bindEq mirror_current fun kind => ?_
  split
  · exact mirror_width h hbase rfl fun _ _ _ _ he hs => .partSelect hbase hfirst he hs
  · exact mirror_width h hbase rfl fun _ _ _ _ he hs => .partSelect hbase hfirst he hs
  · exact mirror_width h hbase rfl fun _ _ _ _ he hs => .rangeSelect hbase hfirst he hs
  · refine Mirror.bind (mirror_expect nofun) fun _ _ _ => ?_
    exact Mirror.bind (mirror_spanFrom hbase.span) fun s s' hs => .pure (.index hbase hfirst hs)

theorem mirror_dottedName : Mirror F (Identifier.Alike F) dottedName dottedName :=
  Mirror.bindEq (mirror_take nofun) fun _ => mirror_expectIdentifier

theorem mirror_memberOf (hbase : base.Alike F base') :
    Mirror F (Expr.Alike F) (memberOf base) (memberOf base') := by
  have hspan := hbase.span
  unfold memberOf
  cases hbase with
  | identifier hfirst =>
    refine Mirror.bind (mirror_itemsAt .dot mirror_dottedName) fun more more' hmore => ?_
    exact Mirror.bind (mirror_spanFrom hspan) fun s s' hs => .pure (.hierarchical hfirst hmore hs)
  | hierarchical hfirst hparts _ =>
    refine Mirror.bind (mirror_itemsAt .dot mirror_dottedName) fun more more' hmore => ?_
    refine Mirror.bind (mirror_spanFrom hspan) fun s s' hs => ?_
    exact .pure (.hierarchical hfirst (List.rel_append hparts hmore) hs)
  | _ =>
    refine Mirror.bind (mirror_report nofun) fun _ _ _ => ?_
    refine Mirror.bind mirror_dottedName fun _ _ _ => ?_
    exact .pure (by constructor <;> assumption)

theorem mirror_extend (h : MirrorExprs F expr expr') (least bound : Nat)
    (hbase : base.Alike F base') :
    Mirror F (Expr.Alike F) (extend expr least bound base) (extend expr' least bound base') := by
  induction bound generalizing base base' with
  | zero => exact .pure hbase
  | succ bound ih =>
    refine Mirror.bindEq mirror_current fun kind => ?_
    split
    · split
      · refine Mirror.bindEq (mirror_take nofun) fun _ => ?_
        refine Mirror.bind (h 0) fun e e' he => ?_
        refine Mirror.bind (mirror_expect nofun) fun _ _ _ => ?_
        refine Mirror.bind (h 0) fun o o' ho => ?_
        refine Mirror.bind (mirror_merge hbase.span ho.span) fun s s' hs => ?_
        exact ih (.ternary hbase he ho hs)
      · exact .pure hbase
    · exact Mirror.bind (mirror_selectOf h hbase) fun e e' he => ih he
    · exact Mirror.bind (mirror_memberOf hbase) fun e e' he => ih he
    · split
      next => exact .pure hbase
      next op hop =>
        split
        · exact .pure hbase
        · have hopens : kind.isUnitStart = true → F.opens := by
            rw [isUnitStart_of_binaryOp? hop]
            nofun
          refine Mirror.bindEq (mirror_take hopens) fun _ => ?_
          refine Mirror.bind (h _) fun right right' hright => ?_
          refine Mirror.bind (mirror_merge hbase.span hright.span) fun s s' hs => ?_
          exact ih (.binary hbase hright hs)

end Extension

theorem mirror_expressionWithin (bound : Nat) :
    MirrorExprs F (expressionWithin bound) (expressionWithin bound) := by
  induction bound with
  | zero => exact fun _ => .noOperand
  | succ bound ih =>
    intro least
    exact Mirror.bind (mirror_operand ih) fun left left' hleft => mirror_extend ih least bound hleft

theorem mirror_expression : Mirror F (Expr.Alike F) expression expression :=
  Mirror.bindEq mirror_remaining fun bound => mirror_expressionWithin (bound + 1) 0

end Netlist.Parser
