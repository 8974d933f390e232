import Netlist.Proofs.Parser.Lays

/-!
The nodes of expressions lie over the tokens they were parsed from. An operand lies over the tokens
consumed for it. The loop over operators keeps that the tree so far lies over the tokens `ls`
consumed last: whatever it adds to the tree begins where those begin.
-/
namespace Netlist.Parser

open Syntax

variable {file : Nat} {pre r : List Token} {expr : Nat → ParserM Expr}

theorem lays_scopedName : Lays file pre r scopedName fun e ts _ => e.node.Over file ts := by
  refine .currentSpan fun start hstart => Lays.nameOr.bind fun i us r₁ hr₁ hi => ?_
  refine .eat (by decide) (fun colons r₂ hr₂ hcolons => ?_) fun _ => .pure ?_
  · refine Lays.nameOr.bind fun j vs r₃ hr₃ hj => ?_
    refine .spanFrom (us ++ colons :: vs) ⟨pre, by simp⟩ ?_ fun span hspan => .pure ?_
    · exact hstart _ r₃ (by simp [hr₁, hr₂, hr₃]) (by simp)
    · rw [List.append_nil]
      exact ⟨.child hi (.mark hcolons (.sole hj)), hspan⟩
  · rw [List.append_nil]
    exact ⟨.sole hi, hi.span⟩

section Parts

variable (hexpr : ∀ pre r least, Lays file pre r (expr least) fun e ts _ => e.node.Over file ts)

include hexpr

theorem lays_moreExpressions :
    Lays file pre r (moreItems (expr 0)) fun es ts r' =>
      Leads file (afterCommas (es.map Expr.node)) ts r' :=
  .moreItems fun pre r => (hexpr pre r 0).mono fun _ _ _ _ h => .child h

theorem lays_expressionList :
    Lays file pre r (expressionList expr) fun es ts r' =>
      Leads file (betweenCommas (Expr.nodes es)) ts r' := by
  refine (hexpr pre r 0).bind fun e us r₁ _ he => ?_
  refine (lays_moreExpressions hexpr).bind fun es vs r₂ hr₂ hes => .pure ?_
  subst hr₂
  rw [List.append_nil, Expr.nodes_eq_map]
  exact (Leads.child he).append hes

/-- Arguments in their parentheses. -/
theorem lays_callArguments :
    Lays file pre r (callArguments expr) fun args ts _ =>
      Cover file (.mark .leftParen :: (betweenCommas (Expr.nodes args) ++ [.mark .rightParen])) ts ∧
        ts ≠ [] := by
  refine .expect (by decide) fun opening r₁ _ hopening => ?_
  have hargs : Lays file (pre ++ [opening]) r₁ (unlessAt .rightParen (expressionList expr))
      fun found us r' => Leads file (betweenCommas (Expr.nodes (found.getD []))) us r' :=
    .unlessAt (fun _ => .nil) fun _ => lays_expressionList hexpr
  refine hargs.bind fun found us r₂ _ hfound => ?_
  refine .expect (by decide) fun closing r₃ hr₃ hclosing => .pure ⟨?_, nofun⟩
  subst hr₃
  exact .mark hopening (hfound.close hclosing)

theorem lays_braces : Lays file pre r (braces expr) fun e ts _ => e.node.Over file ts := by
  refine .currentSpan fun start hstart => .expect (by decide) fun opening r₁ hr₁ hopening => ?_
  refine .eat (by decide) (fun closing r₂ hr₂ _ => ?_) fun _ => ?_
  · refine .spanFrom [opening, closing] ⟨pre, by simp⟩ ?_ fun span _ => .reportAt
    exact hstart _ r₂ (by simp [hr₁, hr₂]) nofun
  refine (hexpr _ _ 0).bind fun first us r₂ hr₂ hfirst => ?_
  refine .eat (by decide) (fun inner r₃ hr₃ hinner => ?_) fun _ => ?_
  · refine (lays_expressionList hexpr).bind fun es vs r₄ hr₄ hes => ?_
    refine .expect (by decide) fun closing r₅ hr₅ hclosing => ?_
    refine .expect (by decide) fun outer r₆ hr₆ houter => ?_
    refine .spanFrom (opening :: (us ++ inner :: (vs ++ [closing, outer]))) ⟨pre, by simp⟩ ?_
      fun span hspan => .pure ⟨?_, hspan⟩
    · exact hstart _ r₆ (by simp [hr₁, hr₂, hr₃, hr₄, hr₅, hr₆]) nofun
    · subst hr₅
      have hlist := (hes.close hclosing).append (.mark houter .nil)
      simp only [List.append_assoc, List.singleton_append] at hlist
      exact .mark hopening (.child hfirst (.mark hinner hlist))
  · refine (lays_moreExpressions hexpr).bind fun es vs r₃ hr₃ hes => ?_
    refine .expect (by decide) fun closing r₄ hr₄ hclosing => ?_
    refine .spanFrom (opening :: (us ++ (vs ++ [closing]))) ⟨pre, by simp⟩ ?_
      fun span hspan => .pure ⟨?_, hspan⟩
    · exact hstart _ r₄ (by simp [hr₁, hr₂, hr₃, hr₄]) nofun
    · subst hr₄
      have hlist := Cover.child hfirst (hes.close hclosing)
      rw [← Expr.nodes_eq_map] at hlist
      exact .mark hopening hlist

theorem lays_nameOrCall : Lays file pre r (nameOrCall expr) fun e ts _ => e.node.Over file ts := by
  refine .currentSpan fun start hstart => lays_scopedName.bind fun name us r₁ hr₁ hname => ?_
  refine .sees (fun _ => ?_) fun _ => .pure ?_
  · refine (lays_callArguments hexpr).bind fun args vs r₂ hr₂ hargs => ?_
    refine .spanFrom (us ++ vs) ⟨pre, by simp⟩ ?_ fun span hspan => .pure ?_
    · exact hstart _ r₂ (by simp [hr₁, hr₂]) (by simp [hargs.2])
    · rw [List.append_nil]
      exact ⟨.child hname hargs.1, hspan⟩
  · rwa [List.append_nil]

omit hexpr in
/-- A system function covers its name and its arguments; empty parentheses leave no trace. -/
theorem cover_systemCall {i : Identifier} {args : List Expr} {span : Span} {t : Token}
    {us : List Token} (hi : (Node.leaf (· = .systemIdentifier) i.span).Over file [t])
    (hargs : Cover file
      (.mark .leftParen :: (betweenCommas (Expr.nodes args) ++ [.mark .rightParen])) us) :
    Cover file (Expr.systemCall i args span).node.parts (t :: us) := by
  cases args with
  | nil =>
    obtain ⟨opening, _, rfl, hopening, hrest⟩ := hargs.of_mark
    obtain ⟨closing, _, rfl, hclosing, hnil⟩ := hrest.of_mark
    obtain rfl := hnil.of_nil
    exact .child hi (.pair hopening hclosing)
  | cons arg args => exact .child hi hargs

theorem lays_systemCall {c : Cursor} (hc : c.Between file pre r)
    (hkind : headKind r = .systemIdentifier) :
    Lays file pre r (systemCall expr c) fun e ts _ => e.node.Over file ts := by
  refine (Lays.nameAt hc (by rw [hkind]; decide)).bind fun i us r₁ _ hi => ?_
  obtain ⟨t, rfl, hr₁, hspan⟩ := hi
  have ht : t.kind = .systemIdentifier := by rw [← hkind, hr₁]; rfl
  have hname : (Node.leaf (· = .systemIdentifier) i.span).Over file [t] :=
    .leaf (decide_eq_true ht) hspan
  have hargs : Lays file (pre ++ [t]) r₁ (whenAt .leftParen (callArguments expr)) fun found us _ =>
      ∀ span, Cover file (Expr.systemCall i (found.getD []) span).node.parts (t :: us) :=
    .whenAt (fun _ span => .child hname (.absent .nil)) fun _ =>
      (lays_callArguments hexpr).mono fun args us _ _ hargs span => cover_systemCall hname hargs.1
  refine hargs.bind fun found us r₂ hr₂ hfound => ?_
  refine .spanFrom (t :: us) ⟨pre, by simp⟩ ?_ fun span hspan => .pure ?_
  · exact hc.opens _ r₂ (by simp [hr₁, hr₂]) nofun
  · rw [List.append_nil]
    refine ⟨hfound span, ?_⟩
    rwa [Expr.span_node]

omit hexpr in
/-- An expression that is a single token. -/
theorem lays_leaf {e : Expr} {kind : Kind} {accepts : Kind → Bool} {c : Cursor}
    (hc : c.Between file pre r) (hkind : headKind r = kind) (hne : kind ≠ .eof)
    (haccepts : accepts kind = true) (hleaf : e.node = .leaf accepts c.currentSpan) :
    Lays file pre r (do take kind; return e) fun e ts _ => e.node.Over file ts := by
  refine .take hkind hne fun t r₁ hr₁ ht => .pure ?_
  rw [hleaf]
  exact .leaf (ht ▸ haccepts) (currentSpan_of_rest (hc.rest.trans hr₁) hc.file)

theorem lays_operand : Lays file pre r (operand expr) fun e ts _ => e.node.Over file ts := by
  refine .look fun c hc => ?_
  rw [current_of_rest hc.rest]
  split
  next op hop =>
    have hkind : headKind r = op.kind := (Kind.kind_of_unaryOp? hop).symm
    refine .take rfl (by rw [hkind]; cases op <;> decide) fun t r₁ hr₁ ht => ?_
    refine (hexpr _ _ _).bind fun e us r₂ hr₂ he => ?_
    have hopens : c.currentSpan.Opens file [t] := hc.opens [t] r₁ hr₁ nofun
    refine .merge [t] ⟨pre, by simp⟩ hopens (Expr.over_span he) fun span hover => .pure ?_
    rw [List.append_nil]
    exact ⟨.mark (ht.trans hkind) (.sole he), hover⟩
  next =>
    split
    next hkind => exact lays_leaf hc rfl (hkind ▸ nofun) (hkind ▸ rfl) rfl
    next hkind => exact lays_leaf hc rfl (hkind ▸ nofun) (hkind ▸ rfl) rfl
    next hkind => exact lays_leaf hc rfl (hkind ▸ nofun) (hkind ▸ rfl) rfl
    next hkind => exact lays_leaf hc hkind (by decide) rfl rfl
    next hkind => exact lays_leaf hc hkind (by decide) rfl rfl
    next hkind => exact lays_leaf hc hkind (by decide) rfl rfl
    next hkind =>
      refine .take hkind (by decide) fun opening r₁ hr₁ hopening => ?_
      refine (hexpr _ _ 0).bind fun e us r₂ hr₂ he => ?_
      refine .expect (by decide) fun closing r₃ hr₃ hclosing => ?_
      refine .spanFrom (opening :: (us ++ [closing])) ⟨pre, by simp⟩ ?_ fun span hover => .pure ?_
      · exact hc.opens _ r₃ (by simp [hr₁, hr₂, hr₃]) nofun
      · exact ⟨.mark hopening (.child he (.mark hclosing .nil)), hover⟩
    next => exact lays_braces hexpr
    next hkind => exact lays_systemCall hexpr hc hkind
    next => exact lays_nameOrCall hexpr
    next => exact lays_nameOrCall hexpr
    next => exact .look fun c _ => .reportAt

section Extension

variable {base : Expr} {bs : List Token}

/-- The second part of a select, from the mark before it on. -/
theorem lays_second {kind : Kind} {build : Expr → Span → Expr} {first : Expr} {opening : Token}
    {us : List Token} (hkind : headKind r = kind) (hne : kind ≠ .eof)
    (hbase : base.node.Over file bs) (hopening : opening.kind = .leftBracket)
    (hfirst : first.node.Over file us) (hbs : bs ++ opening :: us <:+ pre)
    (hbuild : ∀ second span, (build second span).node =
      ⟨span, [base.node.part, .mark .leftBracket, first.node.part, .mark kind, second.node.part,
        .mark .rightBracket]⟩) :
    Lays file pre r
      (do
        take kind
        let e ← expr 0
        expect .rightBracket
        return build e (← spanFrom base.span))
      fun e ts _ => e.node.Over file (bs ++ opening :: (us ++ ts)) := by
  refine .take hkind hne fun mark r₁ _ hmark => (hexpr _ _ 0).bind fun second vs r₂ _ hsecond => ?_
  refine .expect (by decide) fun closing r₃ _ hclosing => ?_
  obtain ⟨before, rfl⟩ := hbs
  refine .spanFrom (bs ++ opening :: (us ++ mark :: (vs ++ [closing]))) ⟨before, by simp⟩
    (Expr.over_span hbase).opens fun span hover => .pure ?_
  rw [hbuild]
  exact ⟨.child hbase (.mark hopening (.child hfirst (.mark hmark (.child hsecond
    (.mark hclosing .nil))))), hover⟩

theorem lays_selectOf (hbase : base.node.Over file bs) (hbs : bs <:+ pre) :
    Lays file pre r (selectOf expr base) fun e ts _ => e.node.Over file (bs ++ ts) := by
  obtain ⟨before, rfl⟩ := hbs
  refine .expect (by decide) fun opening r₁ _ hopening => ?_
  refine (hexpr _ _ 0).bind fun first us r₂ _ hfirst => .current ?_
  have hfront : bs ++ opening :: us <:+ before ++ bs ++ [opening] ++ us := ⟨before, by simp⟩
  split
  next hkind =>
    exact lays_second hexpr hkind (by decide) hbase hopening hfirst hfront fun _ _ => rfl
  next hkind =>
    exact lays_second hexpr hkind (by decide) hbase hopening hfirst hfront fun _ _ => rfl
  next hkind =>
    exact lays_second hexpr hkind (by decide) hbase hopening hfirst hfront fun _ _ => rfl
  next =>
    refine .expect (by decide) fun closing r₃ _ hclosing => ?_
    refine .spanFrom (bs ++ opening :: (us ++ [closing])) ⟨before, by simp⟩
      (Expr.over_span hbase).opens fun span hover => .pure ⟨?_, hover⟩
    exact .child hbase (.mark hopening (.child hfirst (.mark hclosing .nil)))

omit hexpr in
theorem lays_dots : Lays file pre r (itemsAt .dot dottedName) fun more ts _ =>
    Cover file (afterDots more) ts :=
  .itemsAt fun pre r hkind => .take hkind (by decide) fun dot r₁ _ hdot =>
    Lays.nameOr.mono fun i ts _ _ hi => .mark hdot (.sole hi)

omit hexpr in
theorem lays_memberOf (hbase : base.node.Over file bs) (hbs : bs <:+ pre) :
    Lays file pre r (memberOf base) fun e ts _ => e.node.Over file (bs ++ ts) := by
  obtain ⟨before, rfl⟩ := hbs
  have hopens {us : List Token} : base.span.Opens file (bs ++ us) := (Expr.over_span hbase).opens
  unfold memberOf
  split
  next first =>
    refine lays_dots.bind fun more us r₁ _ hmore => ?_
    refine .spanFrom (bs ++ us) ⟨before, by simp⟩ hopens fun span hover => .pure ?_
    rw [List.append_nil]
    exact ⟨hbase.cover.append hmore, hover⟩
  next names span' =>
    have hne : names ≠ [] := by
      rintro rfl
      exact hbase.span.ne_nil hbase.cover.of_nil
    refine lays_dots.bind fun more us r₁ _ hmore => ?_
    refine .spanFrom (bs ++ us) ⟨before, by simp⟩ hopens fun span hover => .pure ?_
    rw [List.append_nil]
    refine ⟨?_, hover⟩
    show Cover file (betweenDots (names ++ more)) (bs ++ us)
    rw [betweenDots_append hne]
    exact hbase.cover.append hmore
  next => exact .report

/-- What the loop keeps: the tree so far lies over the tokens `ls` consumed last. -/
theorem lays_extend {least b : Nat} {left : Expr} {ls : List Token}
    (hleft : left.node.Over file ls) (hls : ls <:+ pre) :
    Lays file pre r (extend expr least b left) fun e ts _ => e.node.Over file (ls ++ ts) := by
  induction b generalizing pre r left ls with
  | zero =>
    refine .pure ?_
    rwa [List.append_nil]
  | succ b ih =>
    have done : Lays file pre r (return left) fun e ts _ => e.node.Over file (ls ++ ts) := by
      refine .pure ?_
      rwa [List.append_nil]
    obtain ⟨before, rfl⟩ := hls
    have grow : ∀ {e : Expr} {us r₁ : List Token}, e.node.Over file (ls ++ us) →
        Lays file (before ++ ls ++ us) r₁ (extend expr least b e) fun d vs _ =>
          d.node.Over file (ls ++ (us ++ vs)) := by
      intro e us r₁ he
      refine (ih he ⟨before, by simp⟩).mono fun d vs r' _ hd => ?_
      rwa [List.append_assoc] at hd
    have hopens {us : List Token} : left.span.Opens file (ls ++ us) := (Expr.over_span hleft).opens
    refine .current ?_
    split
    next hkind =>
      split
      next =>
        refine .take hkind (by decide) fun question r₁ _ hquestion => ?_
        refine (hexpr _ _ 0).bind fun thenExpr us r₂ _ hthen => ?_
        refine .expect (by decide) fun colon r₃ _ hcolon => ?_
        refine (hexpr _ _ 0).bind fun elseExpr vs r₄ _ helse => ?_
        refine .merge (ls ++ question :: (us ++ [colon])) ⟨before, by simp⟩ hopens
          (Expr.over_span helse) fun span hover => ?_
        rw [List.append_assoc, List.cons_append, List.append_assoc, List.singleton_append] at hover
        have htree : (Expr.ternary left thenExpr elseExpr span).node.Over file
            (ls ++ question :: (us ++ colon :: vs)) :=
          ⟨.child hleft (.mark hquestion (.child hthen (.mark hcolon (.sole helse)))), hover⟩
        simpa using grow htree
      next => exact done
    next => exact (lays_selectOf hexpr hleft ⟨before, rfl⟩).bind fun e us r₁ _ he => grow he
    next => exact (lays_memberOf hleft ⟨before, rfl⟩).bind fun e us r₁ _ he => grow he
    next =>
      split
      next => exact done
      next op hop =>
        have hkind : headKind r = op.kind := (Kind.kind_of_binaryOp? hop).symm
        split
        next => exact done
        next =>
          refine .take rfl (by rw [hkind]; cases op <;> decide) fun t r₁ _ ht => ?_
          refine (hexpr _ _ _).bind fun right us r₂ _ hright => ?_
          refine .merge (ls ++ [t]) ⟨before, by simp⟩ hopens (Expr.over_span hright)
            fun span hover => ?_
          rw [List.append_assoc, List.singleton_append] at hover
          have htree : (Expr.binary left op right span).node.Over file (ls ++ t :: us) :=
            ⟨.child hleft (.mark (ht.trans hkind) (.sole hright)), hover⟩
          simpa using grow htree

end Extension

end Parts

theorem lays_expressionWithin (bound least : Nat) :
    Lays file pre r (expressionWithin bound least) fun e ts _ => e.node.Over file ts := by
  induction bound generalizing pre r least with
  | zero => exact .look fun c _ => .reportAt
  | succ bound ih =>
    have hexpr : ∀ pre r least, Lays file pre r (expressionWithin bound least) fun e ts _ =>
        e.node.Over file ts := fun pre r least => ih least
    refine (lays_operand hexpr).bind fun left us r₁ _ hleft => ?_
    exact lays_extend hexpr hleft ⟨pre, rfl⟩

/-- A whole expression. -/
theorem lays_expression : Lays file pre r expression fun e ts _ => e.node.Over file ts :=
  .remaining (lays_expressionWithin _ 0)

end Netlist.Parser
