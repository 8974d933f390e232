import Netlist.Proofs.Parser.Ensures
import Netlist.Proofs.Syntax.Grouping

/-!
The parser of expressions gives grouped trees only, and they are written with the tokens it read.
What the loop over operators keeps is that the tree so far fits the power asked for, and that the
next token does not belong to its last operand: the parser of that operand has stopped before it.
-/
namespace Netlist

/-- Names by the index of their text, and literals by the place of their token. -/
def Syntax.Writing.ofNames (N : Names) (file : Nat) : Writing where
  name i text := N.find? text = some i
  leaf s t := s = t.span file

namespace Parser

open Syntax

variable {file : Nat} {N : Names} {r : List Token} {bound : Nat} {expr : Nat → ParserM Expr}

/-- An expression found with the power `least` is what was written up to a token that ends it. -/
structure Found (W : Writing) (least : Nat) (e : Expr) (ts r : List Token) : Prop where
  grouped : e.Grouped
  written : e.Written W ts
  fits : e.Fits least
  stops : Stops least (headKind r)

/-- The parser of subexpressions finds expressions as long as fewer than `bound` tokens are
ahead. -/
def EnsuresWithin (file : Nat) (N : Names) (bound : Nat) (expr : Nat → ParserM Expr) : Prop :=
  ∀ {r : List Token} {least : Nat}, r.length < bound →
    Ensures file N r (expr least) (Found (.ofNames N file) least)

theorem ensures_nameOr {missing : Kind → SyntaxError} :
    Ensures file N r (nameOr missing) fun i ts _ => i.Written (.ofNames N file) ts := by
  refine Ensures.nameOr.mono fun i ts r' _ h => ?_
  obtain ⟨t, rfl, -, ht, hname⟩ := h
  exact .mk ht hname

theorem ensures_scopedName :
    Ensures file N r scopedName fun e ts _ =>
      Expr.Sentence (.ofNames N file) e ts ∧ e.isName = true := by
  refine .silent .currentSpan fun start => ensures_nameOr.bind fun i us r₁ _ hi => ?_
  refine .eat (by decide) (fun colons r₂ _ hcolons => ?_) fun _ => ?_
  · refine ensures_nameOr.bind fun j vs r₃ _ hj => .silent (.spanFrom _) fun span => ?_
    refine .pure ⟨⟨.inScope, ?_⟩, rfl⟩
    rw [List.append_nil]
    exact .inScope hi hcolons hj
  · refine .pure ⟨⟨.identifier, ?_⟩, rfl⟩
    rw [List.append_nil]
    exact .identifier hi

section Parts

variable (hexpr : EnsuresWithin file N bound expr)

include hexpr

theorem ensures_part (hr : r.length < bound) :
    Ensures file N r (expr 0) fun e ts _ => Expr.Sentence (.ofNames N file) e ts :=
  (hexpr hr).mono fun _ _ _ _ h => ⟨h.grouped, h.written⟩

theorem ensures_expressionList (hr : r.length < bound) :
    Ensures file N r (expressionList expr) fun es ts _ =>
      Separated (Expr.Sentence (.ofNames N file)) es ts := by
  refine (ensures_part hexpr hr).bind fun e us r₁ hr₁ he => ?_
  have hmore : Ensures file N r₁ (moreItems (expr 0)) fun es vs _ =>
      Following (Expr.Sentence (.ofNames N file)) es vs := by
    refine .moreItems fun r' hr' => ensures_part hexpr ?_
    rw [hr₁, List.length_append] at hr
    omega
  refine hmore.bind fun es vs r₂ _ hes => .pure ?_
  rw [List.append_nil]
  exact .mk he hes

/-- Arguments in their parentheses. -/
structure IsArguments (W : Writing) (args : List Expr) (ts : List Token) : Prop where
  grouped : ∀ e ∈ args, e.Grouped
  written : ∃ opening us closing, ts = opening :: (us ++ [closing]) ∧ opening.kind = .leftParen ∧
    Listed (Expr.Written W) args us ∧ closing.kind = .rightParen

theorem ensures_callArguments (hr : r.length ≤ bound) :
    Ensures file N r (callArguments expr) fun args ts _ =>
      IsArguments (.ofNames N file) args ts := by
  refine .expect (by decide) fun opening r₁ hr₁ hopening => ?_
  have hargs : Ensures file N r₁ (unlessAt .rightParen (expressionList expr)) fun found us _ =>
      Listed (Expr.Sentence (.ofNames N file)) (found.getD []) us := by
    refine .unlessAt (fun _ => .none) fun _ => ?_
    refine (ensures_expressionList hexpr ?_).mono fun es ts r' _ hes => .some hes
    rw [hr₁, List.length_cons] at hr
    omega
  refine hargs.bind fun found us r₂ _ hfound => ?_
  refine .expect (by decide) fun closing r₃ _ hclosing => ?_
  refine .pure ⟨hfound.forall_mem fun _ _ he => he.1, opening, us, closing, rfl, hopening, ?_⟩
  exact ⟨hfound.mono fun _ _ he => he.2, hclosing⟩

theorem ensures_braces (hr : r.length ≤ bound) :
    Ensures file N r (braces expr) fun e ts _ => Expr.Sentence (.ofNames N file) e ts ∧ e.IsBase := by
  refine .silent .currentSpan fun start => .expect (by decide) fun opening r₁ hr₁ hopening => ?_
  rw [hr₁, List.length_cons] at hr
  refine .eat (by decide) (fun _ _ _ _ => ?_) fun _ => ?_
  · exact .silent (.spanFrom _) fun span => .reportAt
  refine (ensures_part hexpr (by omega)).bind fun first us r₂ hr₂ hfirst => ?_
  rw [hr₂, List.length_append] at hr
  refine .eat (by decide) (fun inner r₃ hr₃ hinner => ?_) fun _ => ?_
  · rw [hr₃, List.length_cons] at hr
    refine (ensures_expressionList hexpr (by omega)).bind fun es vs r₄ _ hes => ?_
    refine .expect (by decide) fun closing r₅ _ hclosing => ?_
    refine .expect (by decide) fun outer r₆ _ houter => .silent (.spanFrom _) fun span => ?_
    refine .pure ⟨⟨.replicate hfirst.1 hes.ne_nil (hes.forall_mem fun _ _ he => he.1), ?_⟩,
      rfl, rfl, rfl⟩
    exact .replicate hopening hfirst.2 hinner (hes.mono fun _ _ he => he.2) hclosing houter
  · have hmore : Ensures file N r₂ (moreItems (expr 0)) fun es vs _ =>
        Following (Expr.Sentence (.ofNames N file)) es vs :=
      .moreItems fun r' hr' => ensures_part hexpr (by omega)
    refine hmore.bind fun es vs r₃ _ hes => .expect (by decide) fun closing r₄ _ hclosing => ?_
    refine .silent (.spanFrom _) fun span => .pure ?_
    have hall : Separated (Expr.Sentence (.ofNames N file)) (first :: es) (us ++ vs) := .mk hfirst hes
    refine ⟨⟨.concat hall.ne_nil (hall.forall_mem fun _ _ he => he.1), ?_⟩, rfl, rfl, rfl⟩
    rw [← List.append_assoc]
    exact .concat hopening (hall.mono fun _ _ he => he.2) hclosing

theorem ensures_nameOrCall (hr : r.length ≤ bound) :
    Ensures file N r (nameOrCall expr) fun e ts _ =>
      Expr.Sentence (.ofNames N file) e ts ∧ e.IsBase := by
  refine .silent .currentSpan fun start => ensures_scopedName.bind fun name us r₁ hr₁ hname => ?_
  obtain ⟨htree, hisName⟩ := hname
  rw [hr₁, List.length_append] at hr
  refine .sees (fun _ => ?_) fun _ => .pure ?_
  · refine (ensures_callArguments hexpr (by omega)).bind fun args vs r₂ _ hargs => ?_
    obtain ⟨opening, ws, closing, rfl, hopening, hlisted, hclosing⟩ := hargs.written
    refine .silent (.spanFrom _) fun span => .pure ⟨⟨.call hisName hargs.grouped, ?_⟩, rfl, rfl, rfl⟩
    rw [List.append_nil]
    exact .call htree.2 hopening hlisted hclosing
  · rw [List.append_nil]
    exact ⟨htree, .of_isName hisName⟩

theorem ensures_systemCall {c : Cursor} (hc : c.rest = r) (hkind : headKind r = .systemIdentifier)
    (hr : r.length ≤ bound) :
    Ensures file N r (systemCall expr c) fun e ts _ =>
      Expr.Sentence (.ofNames N file) e ts ∧ e.IsBase := by
  refine (Ensures.nameAt hc (by rw [hkind]; decide)).bind fun i us r₁ _ hi => ?_
  obtain ⟨t, rfl, hr₁, hname⟩ := hi
  have ht : t.kind = .systemIdentifier := by rw [← hkind, hr₁]; rfl
  rw [hr₁, List.length_cons] at hr
  have hargs : Ensures file N r₁ (whenAt .leftParen (callArguments expr)) fun found us _ =>
      found = none ∧ us = [] ∨ ∃ args, found = some args ∧ IsArguments (.ofNames N file) args us :=
    .whenAt (fun _ => .inl ⟨rfl, rfl⟩) fun _ =>
      (ensures_callArguments hexpr (by omega)).mono fun args _ _ _ h => .inr ⟨args, rfl, h⟩
  refine hargs.bind fun found us r₂ _ hfound => .silent (.spanFrom _) fun span => .pure ?_
  rw [List.append_nil]
  rcases hfound with ⟨rfl, rfl⟩ | ⟨args, rfl, hargs⟩
  · exact ⟨⟨.systemCall (List.forall_mem_nil _), .systemName ht hname⟩, rfl, rfl, rfl⟩
  · obtain ⟨opening, ws, closing, rfl, hopening, hlisted, hclosing⟩ := hargs.written
    refine ⟨⟨.systemCall hargs.grouped, ?_⟩, rfl, rfl, rfl⟩
    exact .systemCall ht hname hopening hlisted hclosing

/-- An operand: no token behind it belongs to it. -/
structure IsOperand (W : Writing) (e : Expr) (ts r : List Token) : Prop where
  grouped : e.Grouped
  written : e.Written W ts
  fits : ∀ least, e.Fits least
  closed : e.Closed (headKind r)

omit hexpr in
theorem IsOperand.of_isBase {W : Writing} {e : Expr} {ts : List Token}
    (h : Expr.Sentence W e ts ∧ e.IsBase) : IsOperand W e ts r :=
  ⟨h.1.1, h.1.2, fun _ => h.2.fits, h.2.closed⟩

omit hexpr in
theorem ensures_number {kind : Kind} {span : Span} (hkind : headKind r = kind)
    (hnumber : kind.IsNumber) (hspan : ∀ t r₁, r = t :: r₁ → span = t.span file) :
    Ensures file N r (do take kind; return .literal span) (IsOperand (.ofNames N file)) := by
  have hsolid : kind.Solid := by rcases hnumber with rfl | rfl | rfl <;> decide
  refine .take hkind hsolid fun t r₁ hr₁ ht => .pure (.of_isBase ⟨⟨.literal, ?_⟩, rfl, rfl, rfl⟩)
  exact .literal (ht ▸ hnumber) (hspan t r₁ hr₁)

theorem ensures_operand (hr : r.length ≤ bound) :
    Ensures file N r (operand expr) (IsOperand (.ofNames N file)) := by
  refine .look fun c hfile hc => ?_
  rw [current_of_rest hc]
  split
  next op hop =>
    have hkind : headKind r = op.kind := (Kind.kind_of_unaryOp? hop).symm
    refine .take rfl (by rw [hkind]; cases op <;> decide) fun t r₁ hr₁ ht => ?_
    rw [hr₁, List.length_cons] at hr
    refine (hexpr (by omega)).bind fun e us r₂ _ he => .silent (.merge _ _) fun span => .pure ?_
    rw [List.append_nil]
    refine ⟨.unary he.fits.operator_eq_none (he.fits.isTernary_eq_false (by decide)) he.grouped,
      .unary (ht.trans hkind) he.written, fun _ => Expr.fits_operand rfl rfl, ?_⟩
    intro p hp
    cases hp
    exact he.stops
  next =>
    have hspan : ∀ t r₁, r = t :: r₁ → c.currentSpan = t.span file := by
      rintro t r₁ rfl
      exact currentSpan_of_rest hc hfile
    split
    next hkind => exact ensures_number rfl (.inl hkind) hspan
    next hkind => exact ensures_number rfl (.inr (.inl hkind)) hspan
    next hkind => exact ensures_number rfl (.inr (.inr hkind)) hspan
    next hkind =>
      refine .take hkind (by decide) fun t r₁ hr₁ ht => .pure ?_
      exact .of_isBase ⟨⟨.realLiteral, .realLiteral ht (hspan t r₁ hr₁)⟩, rfl, rfl, rfl⟩
    next hkind =>
      refine .take hkind (by decide) fun t r₁ hr₁ ht => .pure ?_
      exact .of_isBase ⟨⟨.stringLiteral, .stringLiteral ht (hspan t r₁ hr₁)⟩, rfl, rfl, rfl⟩
    next hkind => exact .takeError hkind
    next hkind =>
      refine .take hkind (by decide) fun opening r₁ hr₁ hopening => ?_
      rw [hr₁, List.length_cons] at hr
      refine (ensures_part hexpr (by omega)).bind fun e us r₂ _ he => ?_
      refine .expect (by decide) fun closing r₃ _ hclosing => .silent (.spanFrom _) fun span => ?_
      refine .pure (.of_isBase ⟨⟨.paren he.1, .paren hopening he.2 hclosing⟩, rfl, rfl, rfl⟩)
    next => exact (ensures_braces hexpr hr).mono fun _ _ _ _ h => .of_isBase h
    next hkind => exact (ensures_systemCall hexpr hc hkind hr).mono fun _ _ _ _ h => .of_isBase h
    next => exact (ensures_nameOrCall hexpr hr).mono fun _ _ _ _ h => .of_isBase h
    next => exact (ensures_nameOrCall hexpr hr).mono fun _ _ _ _ h => .of_isBase h
    next => exact .look fun c _ _ => .reportAt

section Extension

variable {base : Expr} {bs : List Token}

/-- The second part of a select, from the mark before it on. -/
theorem ensures_second {kind : Kind} {start : Span} {build : Expr → Span → Expr}
    (hkind : headKind r = kind) (hsolid : kind.Solid) (hr : r.length ≤ bound) :
    Ensures file N r
      (do
        take kind
        let e ← expr 0
        expect .rightBracket
        return build e (← spanFrom start))
      fun e ts _ => ∃ second span mark us closing, e = build second span ∧
        ts = mark :: (us ++ [closing]) ∧ mark.kind = kind ∧ Expr.Sentence (.ofNames N file) second us ∧
        closing.kind = .rightBracket := by
  refine .take hkind hsolid fun mark r₁ hr₁ hmark => ?_
  rw [hr₁, List.length_cons] at hr
  refine (ensures_part hexpr (by omega)).bind fun e us r₂ _ he => ?_
  refine .expect (by decide) fun closing r₃ _ hclosing => .silent (.spanFrom _) fun span => ?_
  exact .pure ⟨e, span, mark, us, closing, rfl, rfl, hmark, he, hclosing⟩

/-- What was added to a base by a select or by dots. -/
structure Added (W : Writing) (bs : List Token) (e : Expr) (ts : List Token) : Prop where
  tree : Expr.Sentence W e (bs ++ ts)
  isBase : e.IsBase
  ne_nil : ts ≠ []

theorem ensures_selectOf (hbase : Expr.Sentence (.ofNames N file) base bs) (hisBase : base.IsBase)
    (hr : r.length ≤ bound) :
    Ensures file N r (selectOf expr base) fun e ts _ => Added (.ofNames N file) bs e ts := by
  refine .expect (by decide) fun opening r₁ hr₁ hopening => ?_
  rw [hr₁, List.length_cons] at hr
  refine (ensures_part hexpr (by omega)).bind fun first us r₂ hr₂ hfirst => .current ?_
  rw [hr₂, List.length_append] at hr
  split
  next hkind =>
    refine (ensures_second hexpr hkind (by decide) (by omega)).mono fun e ts _ _ he => ?_
    obtain ⟨width, span, mark, vs, closing, rfl, rfl, hmark, hwidth, hclosing⟩ := he
    refine ⟨⟨.partSelect hisBase hbase.1 hfirst.1 hwidth.1, ?_⟩, ⟨rfl, rfl, rfl⟩, nofun⟩
    exact .partSelect hbase.2 hopening hfirst.2 hmark hwidth.2 hclosing
  next hkind =>
    refine (ensures_second hexpr hkind (by decide) (by omega)).mono fun e ts _ _ he => ?_
    obtain ⟨width, span, mark, vs, closing, rfl, rfl, hmark, hwidth, hclosing⟩ := he
    refine ⟨⟨.partSelect hisBase hbase.1 hfirst.1 hwidth.1, ?_⟩, ⟨rfl, rfl, rfl⟩, nofun⟩
    exact .partSelect hbase.2 hopening hfirst.2 hmark hwidth.2 hclosing
  next hkind =>
    refine (ensures_second hexpr hkind (by decide) (by omega)).mono fun e ts _ _ he => ?_
    obtain ⟨lsb, span, colon, vs, closing, rfl, rfl, hcolon, hlsb, hclosing⟩ := he
    refine ⟨⟨.rangeSelect hisBase hbase.1 hfirst.1 hlsb.1, ?_⟩, ⟨rfl, rfl, rfl⟩, nofun⟩
    exact .rangeSelect hbase.2 hopening hfirst.2 hcolon hlsb.2 hclosing
  next =>
    refine .expect (by decide) fun closing r₃ _ hclosing => .silent (.spanFrom _) fun span => ?_
    refine .pure ⟨⟨.index hisBase hbase.1 hfirst.1, ?_⟩, ⟨rfl, rfl, rfl⟩, nofun⟩
    exact .index hbase.2 hopening hfirst.2 hclosing

omit hexpr in
theorem ensures_dots (hkind : headKind r = .dot) :
    Ensures file N r (itemsAt .dot dottedName) fun more ts _ =>
      Strung (Identifier.Dotted (.ofNames N file)) more ts ∧ more ≠ [] := by
  refine .and (.itemsAt fun r' _ hr' => ?_) (.itemsAt_ne_nil hkind (by decide))
  exact .take hr' (by decide) fun dot r₁ _ hdot => ensures_nameOr.mono fun i ts _ _ hi => .mk hdot hi

omit hexpr in
theorem ensures_memberOf (hbase : Expr.Sentence (.ofNames N file) base bs) (hkind : headKind r = .dot) :
    Ensures file N r (memberOf base) fun e ts _ => Added (.ofNames N file) bs e ts := by
  have hne : ∀ {more : List Identifier} {us : List Token},
      Strung (Identifier.Dotted (.ofNames N file)) more us → more ≠ [] → us ++ [] ≠ [] := by
    rintro more us (_ | ⟨⟨_, _⟩, _⟩) hmore
    · exact absurd rfl hmore
    · exact nofun
  unfold memberOf
  split
  next first =>
    refine (ensures_dots hkind).bind fun more us r₁ _ hmore => .silent (.spanFrom _) fun span => ?_
    refine .pure ⟨⟨.hierarchical ?_, ?_⟩, ⟨rfl, rfl, rfl⟩, hne hmore.1 hmore.2⟩
    · have hpos := List.length_pos_iff.mpr hmore.2
      rw [List.length_cons]
      omega
    · rw [List.append_nil]
      cases hbase.2 with
      | identifier hfirst => exact .hierarchical hfirst hmore.1
  next parts span' =>
    refine (ensures_dots hkind).bind fun more us r₁ _ hmore => .silent (.spanFrom _) fun span => ?_
    refine .pure ⟨⟨.hierarchical ?_, ?_⟩, ⟨rfl, rfl, rfl⟩, hne hmore.1 hmore.2⟩
    · cases hbase.1 with
      | hierarchical hparts =>
        rw [List.length_append]
        omega
    · rw [List.append_nil]
      cases hbase.2 with
      | hierarchical hfirst hparts =>
        rw [List.append_assoc]
        exact .hierarchical hfirst (hparts.append hmore.1)
  next => exact .report

/-- What the loop keeps: the tree so far stands for the tokens `ls` read so far. -/
theorem ensures_extend {least b : Nat} {left : Expr} {ls : List Token}
    (hleft : Expr.Sentence (.ofNames N file) left ls) (hfits : left.Fits least)
    (hclosed : left.Closed (headKind r)) (hr : r.length < b) (hb : b ≤ bound) :
    Ensures file N r (extend expr least b left) fun e ts r' =>
      Found (.ofNames N file) least e (ls ++ ts) r' := by
  induction b generalizing r left ls with
  | zero => exact absurd hr (Nat.not_lt_zero _)
  | succ b ih =>
    have done : Stops least (headKind r) → Ensures file N r (return left) fun e ts r' =>
        Found (.ofNames N file) least e (ls ++ ts) r' := by
      intro hstops
      refine .pure ⟨hleft.1, ?_, hfits, hstops⟩
      rw [List.append_nil]
      exact hleft.2
    have grow : ∀ {e : Expr} {us r₁ : List Token}, r = us ++ r₁ → us ≠ [] →
        Expr.Sentence (.ofNames N file) e (ls ++ us) → e.Fits least → e.Closed (headKind r₁) →
        Ensures file N r₁ (extend expr least b e) fun d vs r' =>
          Found (.ofNames N file) least d (ls ++ (us ++ vs)) r' := by
      intro e us r₁ hr₁ hus he hfits hclosed
      have hpos := List.length_pos_iff.mpr hus
      rw [hr₁, List.length_append] at hr
      refine (ih he hfits hclosed (by omega) (by omega)).mono fun d vs r' _ hd => ?_
      rwa [List.append_assoc] at hd
    refine .current ?_
    split
    next hkind =>
      split
      next hleast =>
        subst hleast
        rw [hkind] at hclosed
        have hctern := hclosed.isTernary Expr.not_stops_question
        refine .take hkind (by decide) fun question r₁ hr₁ hquestion => ?_
        rw [hr₁, List.length_cons] at hr
        refine (ensures_part hexpr (by omega)).bind fun thenExpr us r₂ hr₂ hthen => ?_
        refine .expect (by decide) fun colon r₃ hr₃ hcolon => ?_
        rw [hr₂, hr₃, List.length_append, List.length_cons] at hr
        refine (hexpr (by omega)).bind fun elseExpr vs r₄ hr₄ helse => ?_
        refine .silent (.merge _ _) fun span => ?_
        have hread : r = question :: (us ++ colon :: vs) ++ r₄ := by simp [hr₁, hr₂, hr₃, hr₄]
        have htree : Expr.Sentence (.ofNames N file) (.ternary left thenExpr elseExpr span)
            (ls ++ question :: (us ++ colon :: vs)) :=
          ⟨.ternary hctern hleft.1 hthen.1 helse.grouped,
            .ternary hleft.2 hquestion hthen.2 hcolon helse.written⟩
        have hstops : Expr.Closed (.ternary left thenExpr elseExpr span) (headKind r₄) := by
          intro p hp
          cases hp
          exact helse.stops
        have hnew := grow hread nofun htree Expr.fits_zero hstops
        simpa only [List.cons_append, List.append_assoc] using hnew
      next hleast => exact done (hkind ▸ stops_question hleast)
    next hkind =>
      rw [hkind] at hclosed
      refine (ensures_selectOf hexpr hleft hclosed.isBase (by omega)).bind fun e us r₁ hr₁ he => ?_
      exact grow hr₁ he.ne_nil he.tree he.isBase.fits he.isBase.closed
    next hkind =>
      refine (ensures_memberOf hleft hkind).bind fun e us r₁ hr₁ he => ?_
      exact grow hr₁ he.ne_nil he.tree he.isBase.fits he.isBase.closed
    next hquestion hbracket hdot =>
      split
      next hnone => exact done ⟨hbracket, hdot, fun h => absurd h hquestion, by simp [hnone]⟩
      next op hop =>
        have hkind : headKind r = op.kind := (Kind.kind_of_binaryOp? hop).symm
        split
        next hpower => exact done (hkind ▸ .of_operator hpower)
        next hpower =>
          rw [hkind] at hclosed
          refine .take rfl (by rw [hkind]; cases op <;> decide) fun t r₁ hr₁ ht => ?_
          rw [hr₁, List.length_cons] at hr
          refine (hexpr (by omega)).bind fun right us r₂ hr₂ hright => ?_
          refine .silent (.merge _ _) fun span => ?_
          have hread : r = t :: us ++ r₂ := by rw [hr₁, hr₂, List.cons_append]
          have hltern := hclosed.isTernary Expr.not_stops_operator
          have hrtern := hright.fits.isTernary_eq_false op.rightPower_ne_zero
          have htree : Expr.Sentence (.ofNames N file) (.binary left op right span) (ls ++ t :: us) :=
            ⟨.binary hltern hrtern (fun _ => hclosed.operator) hright.fits.operator hleft.1
              hright.grouped, .binary hleft.2 (ht.trans hkind) hright.written⟩
          refine grow hread nofun htree ⟨nofun, fun inner hinner => ?_⟩ fun p hp => ?_
          · cases hinner
            exact Nat.not_lt.mp hpower
          · cases hp
            exact hright.stops

end Extension

end Parts

theorem ensures_expressionWithin (file : Nat) (N : Names) (bound : Nat) :
    EnsuresWithin file N bound (expressionWithin bound) := by
  induction bound with
  | zero => exact fun hr => absurd hr (Nat.not_lt_zero _)
  | succ bound ih =>
    intro r least hr
    refine (ensures_operand ih (by omega)).bind fun left us r₁ hr₁ hleft => ?_
    obtain ⟨t, us, rfl, -⟩ := hleft.written.exists_head
    rw [hr₁, List.cons_append, List.length_cons, List.length_append] at hr
    exact ensures_extend ih ⟨hleft.grouped, hleft.written⟩ (hleft.fits least) hleft.closed
      (by omega) le_rfl

/-- A whole expression. -/
theorem ensures_expression :
    Ensures file N r expression fun e ts _ => Expr.Sentence (.ofNames N file) e ts :=
  .remaining (ensures_part (ensures_expressionWithin file N _) (Nat.lt_succ_self _))

end Parser

end Netlist
