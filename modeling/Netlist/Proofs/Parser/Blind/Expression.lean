import Netlist.Proofs.Parser.Blind.State

/-!
The parsers of expressions do not see behind the tokens they need. A level of nesting begins with a
token that has been consumed, and so does each round of extending an expression; the exception is an
operand that is missing before a token that closes or separates, and there nothing extends it.
-/
namespace Netlist.Parser

open Syntax

variable {K : Fork} {ts : List Token}

/-- Nothing is computed with the end of a text. -/
theorem ne_eof_of_unaryOp? {kind : Kind} {op : UnaryOp} (h : kind.unaryOp? = some op) :
    kind ≠ .eof := by
  rintro rfl
  cases h

theorem ne_eof_of_binaryOp? {kind : Kind} {op : BinaryOp} (h : kind.binaryOp? = some op) :
    kind ≠ .eof := by
  rintro rfl
  cases h

theorem blind_noOperand : Blind K ts noOperand noOperand := by
  apply Blind.of_ne_nil
  intro hne
  apply Blind.look
  intro c hrest
  rw [currentSpan_turn hrest hne, current_turn hne, current_common hrest hne]
  refine (Blind.reportAt _ _).bind fun _ vs _ => ?_
  split
  · exact .pure _
  · exact blind_take.bind fun _ _ _ => .pure _

theorem blind_scopedName : Blind K ts scopedName scopedName := by
  refine blind_currentSpan.bind fun start _ _ => ?_
  refine blind_expectIdentifier.bind fun first _ _ => ?_
  refine Blind.eat (by decide) (fun _ _ _ _ => ?_) fun _ => .pure _
  refine blind_expectIdentifier.bind fun inner _ _ => ?_
  exact (blind_spanFrom start).bind fun _ _ _ => .pure _

theorem eats_scopedName {r : List Token} (h : (headKind r).isIdentifier = true) :
    Eats r scopedName :=
  .kept Silent.currentSpan.keeps fun _ => (Eats.nameOr h).bind

theorem blind_dottedName : Blind K ts dottedName dottedName :=
  blind_take.bind fun _ _ _ => blind_expectIdentifier

theorem eats_dottedName (r : List Token) (h : headKind r = .dot) : Eats r dottedName :=
  (Eats.take h nofun).bind

theorem blind_memberOf (base : Expr) : Blind K ts (memberOf base) (memberOf base) := by
  have hnames : Blind K ts (itemsAt .dot dottedName) (itemsAt .dot dottedName) :=
    blind_itemsAt eats_dottedName fun _ => blind_dottedName
  unfold memberOf
  split
  · exact hnames.bind fun _ _ _ => (blind_spanFrom _).bind fun _ _ _ => .pure _
  · exact hnames.bind fun _ _ _ => (blind_spanFrom _).bind fun _ _ _ => .pure _
  · exact (blind_report _).bind fun _ _ _ => blind_dottedName.bind fun _ _ _ => .pure _

theorem eats_memberOf {r : List Token} (h : headKind r = .dot) (base : Expr) :
    Eats r (memberOf base) := by
  have hnames : Eats r (itemsAt .dot dottedName) := .itemsAt h nofun (eats_dottedName r h)
  unfold memberOf
  split
  · exact hnames.bind
  · exact hnames.bind
  · exact .kept (keeps_report _) fun _ => (eats_dottedName r h).bind

section Parts

variable {expr expr' : Nat → ParserM Expr} {n : Nat}
  (hexpr : ∀ vs least, vs.length ≤ n → Blind K vs (expr least) (expr' least))

include hexpr

theorem blind_moreExpressions (hn : ts.length ≤ n + 1) :
    Blind K ts (moreItems (expr 0)) (moreItems (expr' 0)) :=
  blind_moreItems fun vs hvs => hexpr vs 0 (by omega)

theorem blind_expressionList (hn : ts.length ≤ n) :
    Blind K ts (expressionList expr) (expressionList expr') := by
  refine (hexpr ts 0 hn).bind fun first vs hvs => ?_
  have hless := hvs.length_le
  exact (blind_moreExpressions hexpr (by omega)).bind fun _ _ _ => .pure _

theorem blind_callArguments (hn : ts.length ≤ n) :
    Blind K ts (callArguments expr) (callArguments expr') := by
  refine (blind_expect (by decide)).bind fun _ vs hvs => ?_
  have hless := hvs.length_le
  refine (blind_unlessAt (blind_expressionList hexpr (by omega))).bind fun _ _ _ => ?_
  exact (blind_expect (by decide)).bind fun _ _ _ => .pure _

theorem blind_braces (hn : ts.length ≤ n + 1) (hkind : headKind ts = .leftBrace) :
    Blind K ts (braces expr) (braces expr') := by
  refine blind_currentSpan.bindKeeps Silent.currentSpan.keeps fun start => ?_
  refine blind_expectThen hkind (by decide) fun vs hvs => ?_
  refine Blind.eat (by decide) (fun _ _ _ _ => ?_) fun _ => ?_
  · refine (blind_spanFrom start).bind fun _ _ _ => ?_
    exact (Blind.reportAt _ _).bind fun _ _ _ => .pure _
  refine (hexpr vs 0 (by omega)).bind fun first us hus => ?_
  have hless := hus.length_le
  refine Blind.eat (by decide) (fun _ ws hws _ => ?_) fun _ => ?_
  · have hshorter : ws.length < us.length := by rw [hws, List.length_cons]; omega
    refine (blind_expressionList hexpr (by omega)).bind fun _ _ _ => ?_
    refine (blind_expect (by decide)).bind fun _ _ _ => ?_
    refine (blind_expect (by decide)).bind fun _ _ _ => ?_
    exact (blind_spanFrom start).bind fun _ _ _ => .pure _
  · refine (blind_moreExpressions hexpr (by omega)).bind fun _ _ _ => ?_
    refine (blind_expect (by decide)).bind fun _ _ _ => ?_
    exact (blind_spanFrom start).bind fun _ _ _ => .pure _

theorem blind_nameOrCall (hn : ts.length ≤ n + 1) (hname : (headKind ts).isIdentifier = true) :
    Blind K ts (nameOrCall expr) (nameOrCall expr') := by
  apply Blind.of_ne_nil
  intro hne
  have heats : Eats (ts ++ K.left) scopedName :=
    eats_scopedName (by rw [headKind_append hne]; exact hname)
  refine blind_currentSpan.bindKeeps Silent.currentSpan.keeps fun start => ?_
  refine blind_scopedName.bindEats heats fun name vs _ hless => ?_
  refine Blind.sees (fun _ => ?_) fun _ => .pure name
  refine (blind_callArguments hexpr (by omega)).bind fun _ _ _ => ?_
  exact (blind_spanFrom start).bind fun _ _ _ => .pure _

theorem blind_systemCall {c : Cursor} (hrest : c.rest = ts ++ K.left) (hn : ts.length ≤ n + 1)
    (hkind : headKind ts = .systemIdentifier) :
    Blind K ts (systemCall expr c) (systemCall expr' (K.turn ts c)) := by
  apply Blind.of_ne_nil
  intro hne
  have heats : Eats (ts ++ K.left) (nameAt c) := by
    apply Eats.nameAt (current_of_rest hrest)
    rw [headKind_append hne, hkind]
    nofun
  unfold systemCall
  rw [currentSpan_turn hrest hne]
  refine (blind_nameAt hrest).bindEats heats fun name vs _ hless => ?_
  refine (blind_whenAt fun _ => blind_callArguments hexpr (by omega)).bind fun _ _ _ => ?_
  exact (blind_spanFrom _).bind fun _ _ _ => .pure _

theorem blind_operand (hn : ts.length ≤ n + 1) :
    Blind K ts (operand expr) (operand expr') := by
  apply Blind.of_ne_nil
  intro hne
  apply Blind.look
  intro c hrest
  rw [current_turn hne, current_common hrest hne, currentSpan_turn hrest hne]
  split
  next op hop =>
    refine blind_takeThen rfl (ne_eof_of_unaryOp? hop) fun vs hless => ?_
    refine (hexpr vs _ (by omega)).bind fun inner _ _ => ?_
    exact (Blind.demand _ _).bind fun _ _ _ => .pure _
  next =>
    split
    · exact blind_take.bind fun _ _ _ => .pure _
    · exact blind_take.bind fun _ _ _ => .pure _
    · exact blind_take.bind fun _ _ _ => .pure _
    · exact blind_take.bind fun _ _ _ => .pure _
    · exact blind_take.bind fun _ _ _ => .pure _
    · exact blind_take.bind fun _ _ _ => .pure _
    · next hkind =>
      refine blind_takeThen hkind (by decide) fun vs hless => ?_
      refine (hexpr vs 0 (by omega)).bind fun inner _ _ => ?_
      refine (blind_expect (by decide)).bind fun _ _ _ => ?_
      exact (blind_spanFrom _).bind fun _ _ _ => .pure _
    · next hkind => exact blind_braces hexpr hn hkind
    · next hkind => exact blind_systemCall hexpr hrest hn hkind
    · next hkind => exact blind_nameOrCall hexpr hn (by rw [hkind]; rfl)
    · next hkind => exact blind_nameOrCall hexpr hn (by rw [hkind]; rfl)
    · exact blind_noOperand

theorem blind_selectOf (hn : ts.length ≤ n + 1) (hkind : headKind ts = .leftBracket)
    (base : Expr) : Blind K ts (selectOf expr base) (selectOf expr' base) := by
  have hclose {us : List Token} (result : Span → Expr) :
      Blind K us (do expect .rightBracket; return result (← spanFrom base.span))
        (do expect .rightBracket; return result (← spanFrom base.span)) :=
    (blind_expect (by decide)).bind fun _ _ _ => (blind_spanFrom _).bind fun _ _ _ => .pure _
  have hsecond {kind : Kind} {us : List Token} (hless : us.length ≤ n)
      (result : Expr → Span → Expr) :
      Blind K us
        (do take kind; let e ← expr 0; expect .rightBracket
            return result e (← spanFrom base.span))
        (do take kind; let e ← expr' 0; expect .rightBracket
            return result e (← spanFrom base.span)) := by
    refine blind_take.bind fun _ vs hvs => ?_
    have hshorter := hvs.length_le
    exact (hexpr vs 0 (by omega)).bind fun e _ _ => hclose (result e)
  refine blind_expectThen hkind (by decide) fun vs hless => ?_
  refine (hexpr vs 0 (by omega)).bind fun first us hus => ?_
  have hshorter := hus.length_le
  apply Blind.current
  split
  · exact hsecond (by omega) fun e span => .partSelect base first true e span
  · exact hsecond (by omega) fun e span => .partSelect base first false e span
  · exact hsecond (by omega) fun e span => .rangeSelect base first e span
  · exact hclose fun span => .index base first span

theorem blind_extend {b b' : Nat} (hb : ts.length ≤ b) (hb' : ts.length ≤ b')
    (hn : ts.length ≤ n + 1) (least : Nat) (left : Expr) :
    Blind K ts (extend expr least b left) (extend expr' least b' left) := by
  induction b generalizing ts b' left with
  | zero => exact .of_length hb
  | succ b ih =>
    cases b' with
    | zero => exact .of_length hb'
    | succ b' =>
      apply Blind.of_ne_nil
      intro hne
      apply Blind.current
      split
      next hkind =>
        split
        · refine blind_takeThen hkind (by decide) fun vs hless => ?_
          refine (hexpr vs 0 (by omega)).bind fun thenExpr us hus => ?_
          have hus := hus.length_le
          refine (blind_expect (by decide)).bind fun _ ws hws => ?_
          have hws := hws.length_le
          refine (hexpr ws 0 (by omega)).bind fun elseExpr xs hxs => ?_
          have hxs := hxs.length_le
          refine (Blind.demand _ _).bind fun span ys hys => ?_
          have hys := hys.length_le
          exact ih (by omega) (by omega) (by omega) _
        · exact .pure left
      next hkind =>
        have heats : Eats (ts ++ K.left) (selectOf expr left) :=
          (Eats.expect ((headKind_append hne K.left).trans hkind) (by decide)).bind
        refine (blind_selectOf hexpr hn hkind left).bindEats heats fun _ vs _ hless => ?_
        exact ih (by omega) (by omega) (by omega) _
      next hkind =>
        have heats : Eats (ts ++ K.left) (memberOf left) :=
          eats_memberOf ((headKind_append hne K.left).trans hkind) left
        refine (blind_memberOf left).bindEats heats fun _ vs _ hless => ?_
        exact ih (by omega) (by omega) (by omega) _
      next =>
        split
        next => exact .pure left
        next op hop =>
          split
          · exact .pure left
          · refine blind_takeThen rfl (ne_eof_of_binaryOp? hop) fun vs hless => ?_
            refine (hexpr vs _ (by omega)).bind fun right us hus => ?_
            have hus := hus.length_le
            refine (Blind.demand _ _).bind fun span ws hws => ?_
            have hws := hws.length_le
            exact ih (by omega) (by omega) (by omega) _

end Parts

/-- Where an operand is missing and nothing is consumed. -/
def isStuck (kind : Kind) : Bool := endsExpression kind || kind = .eof

/-- Nothing extends an expression there. -/
private theorem extend_stuck {expr : Nat → ParserM Expr} {least b : Nat} {left : Expr} {c : Cursor}
    {s : Session} (h : isStuck c.current = true) :
    ((extend expr least b left).task c).run s = ((left, c), s) := by
  cases b with
  | zero => rfl
  | succ b =>
    rw [extend, run_bind Reads.current.run]
    cases hkind : c.current <;> first | rfl | (rw [hkind] at h; cases h)

theorem eats_operand {r : List Token} (h : isStuck (headKind r) = false)
    (expr : Nat → ParserM Expr) : Eats r (operand expr) := by
  have heof : headKind r ≠ .eof := by
    intro heof
    rw [heof] at h
    cases h
  have hends : endsExpression (headKind r) = false := (Bool.or_eq_false_iff.mp h).1
  apply Eats.look
  intro c hrest
  have hcurrent : c.current = headKind r := current_of_rest hrest
  rw [hcurrent]
  split
  · exact (Eats.take rfl heof).bind
  · split
    · next hkind => exact (Eats.take rfl heof).bind
    · next hkind => exact (Eats.take rfl heof).bind
    · next hkind => exact (Eats.take rfl heof).bind
    · next hkind => exact (Eats.take hkind (by decide)).bind
    · next hkind => exact (Eats.take hkind (by decide)).bind
    · next hkind => exact (Eats.take hkind (by decide)).bind
    · next hkind => exact (Eats.take hkind (by decide)).bind
    · next hkind =>
      exact .kept Silent.currentSpan.keeps fun _ => (Eats.expect hkind (by decide)).bind
    · next hkind => exact (Eats.nameAt hcurrent heof).bind
    · next hkind =>
      exact .kept Silent.currentSpan.keeps fun _ => (eats_scopedName (by rw [hkind]; rfl)).bind
    · next hkind =>
      exact .kept Silent.currentSpan.keeps fun _ => (eats_scopedName (by rw [hkind]; rfl)).bind
    · apply Eats.look
      intro d hrest'
      have hcurrent' : d.current = headKind r := current_of_rest hrest'
      refine .kept (keeps_reportAt _ _) fun _ => ?_
      rw [hcurrent', if_neg (by simp [hends])]
      exact (Eats.take rfl heof).bind

theorem blind_expressionWithin {b b' : Nat} (hb : ts.length ≤ b) (hb' : ts.length ≤ b')
    (least : Nat) : Blind K ts (expressionWithin b least) (expressionWithin b' least) := by
  induction b generalizing ts b' least with
  | zero => exact .of_length hb
  | succ b ih =>
    cases b' with
    | zero => exact .of_length hb'
    | succ b' =>
      apply Blind.of_ne_nil
      intro hne
      have hpos := List.length_pos_iff.mpr hne
      have hexpr (vs : List Token) (least : Nat) (hvs : vs.length ≤ ts.length - 1) :
          Blind K vs (expressionWithin b least) (expressionWithin b' least) :=
        ih (by omega) (by omega) least
      have hextend (left : Expr) (vs : List Token) (hless : vs.length < ts.length) :
          Blind K vs (extend (expressionWithin b) least b left)
            (extend (expressionWithin b') least b' left) :=
        blind_extend hexpr (by omega) (by omega) (by omega) least left
      have hoperand : Blind K ts (operand (expressionWithin b)) (operand (expressionWithin b')) :=
        blind_operand hexpr (by omega)
      by_cases hstuck : isStuck (headKind ts) = true
      · -- Either something was consumed after all, or nothing extends the missing operand.
        refine hoperand.bind fun left vs hvs => ?_
        by_cases hless : vs.length < ts.length
        · exact hextend left vs hless
        · obtain rfl := hvs.eq_of_length (by have := hvs.length_le; omega)
          intro c hrest s e c' t us hrun hrest' _
          rw [extend_stuck (by rwa [current_common hrest hne])] at hrun
          cases hrun
          rw [extend_stuck (by rwa [current_turn hne]),
            List.append_cancel_right (hrest.symm.trans hrest')]
      · have heats : Eats (ts ++ K.left) (operand (expressionWithin b)) := by
          apply eats_operand
          rw [headKind_append hne]
          simpa using hstuck
        exact hoperand.bindEats heats fun left vs _ hless => hextend left vs hless

theorem blind_expression : Blind K ts expression expression :=
  Blind.remaining fun _ _ hb hb' => blind_expressionWithin (by omega) (by omega) 0

end Netlist.Parser
