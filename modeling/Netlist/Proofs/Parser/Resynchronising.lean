import Netlist.Proofs.Parser.Reads

/-!
Where a statement ends. No parser of a part of a statement consumes a semicolon, whatever it finds:
each names the kinds it consumes, and the parser of expressions leaves semicolons where they are. So
the first semicolon ahead is still there when a statement comes to its end, and there it is
consumed, at once or after the tokens before it have been skipped.
-/
namespace Netlist.Parser

open Syntax

variable {α β : Type}

/-- The parser consumes no semicolon. -/
def Spares (x : ParserM α) : Prop :=
  ∀ (c : Cursor) (s : Session) (ts : List Token), c.Passes ts ((x.task c).run s).1.2 →
    ∀ t ∈ ts, t.kind ≠ .semicolon

/-- One token is consumed at a time. -/
theorem Cursor.Passes.kind_advance {c : Cursor} {ts : List Token} (h : c.Passes ts c.advance) :
    ∀ t ∈ ts, t.kind = c.current := by
  cases hrest : c.rest with
  | nil =>
    have hstay : c.advance = c := by rw [Cursor.advance, hrest]
    rw [h.eq_nil (congrArg Cursor.rest hstay)]
    exact List.forall_mem_nil _
  | cons u r =>
    rw [current_of_rest hrest]
    by_cases heof : u.kind = .eof
    · have hstay : c.advance = c := by simp [Cursor.advance, hrest, heof]
      rw [h.eq_nil (congrArg Cursor.rest hstay)]
      exact List.forall_mem_nil _
    · have hone : [u] ++ r = ts ++ r := by
        have hsplit := h.rest
        rw [rest_advance hrest heof, hrest] at hsplit
        exact hsplit
      rw [← List.append_cancel_right hone]
      exact List.forall_mem_singleton.mpr rfl

namespace Spares

variable {x : ParserM α} {f : α → ParserM β}

theorem pure (a : α) : Spares (Pure.pure a : ParserM α) := by
  intro c s ts hpasses
  rw [hpasses.eq_nil rfl]
  exact List.forall_mem_nil _

theorem bind (hx : Spares x) (hf : ∀ a, Spares (f a)) : Spares (x >>= f) := by
  intro c s ts hpasses
  rcases hrun : (x.task c).run s with ⟨⟨a, c'⟩, t⟩
  obtain ⟨us, hus⟩ := Cursor.Passes.exists_run x c s
  obtain ⟨vs, hvs⟩ := Cursor.Passes.exists_run (f a) c' t
  have hfirst := hx c s us hus
  rw [hrun] at hus
  rw [run_bind hrun] at hpasses
  rw [hpasses.eq (hus.trans hvs), List.forall_mem_append]
  exact ⟨hfirst, hf a c' t vs hvs⟩

theorem map {g : α → β} (hx : Spares x) : Spares (g <$> x) := hx.bind fun a => pure (g a)

theorem silent (hx : Silent x) : Spares x := by
  intro c s ts hpasses
  obtain ⟨a, c', hreads⟩ := hx c s
  rw [hreads.run] at hpasses
  rw [hpasses.eq hreads.passes]
  exact List.forall_mem_nil _

private theorem of_stay {c c' : Cursor} {ts : List Token} (h : c.Passes ts c')
    (hsame : c'.rest = c.rest) : ∀ t ∈ ts, t.kind ≠ .semicolon := by
  rw [h.eq_nil hsame]
  exact List.forall_mem_nil _

theorem look : Spares look := silent .look

theorem reportAt (e : SyntaxError) (span : Span) : Spares (reportAt e span) :=
  fun _ _ _ hpasses => of_stay hpasses rfl

theorem intern (text : String) : Spares (intern text) :=
  fun _ _ _ hpasses => of_stay hpasses rfl

/-- Asking for another kind. -/
theorem eat (kind : Kind) (hkind : kind ≠ .semicolon) : Spares (eat kind) := by
  intro c s ts hpasses
  change c.Passes ts (if c.current = kind then (true, c.advance) else (false, c)).2 at hpasses
  split at hpasses
  next hcurrent =>
    intro t ht
    rw [hpasses.kind_advance t ht, hcurrent]
    exact hkind
  next => exact of_stay hpasses rfl

theorem current : Spares current := look.bind fun c => pure c.current

theorem currentSpan : Spares currentSpan := silent .currentSpan

theorem remaining : Spares remaining := look.bind fun c => pure c.rest.length

theorem sees (kind : Kind) : Spares (sees kind) := look.bind fun _ => pure _

theorem merge (a b : Span) : Spares (merge a b) := silent (.merge a b)

theorem spanFrom (start : Span) : Spares (spanFrom start) := silent (.spanFrom start)

theorem spanSince (start : Span) (consumed : Nat) : Spares (spanSince start consumed) :=
  silent (.spanSince start consumed)

theorem report (e : SyntaxError) : Spares (report e) :=
  currentSpan.bind fun span => reportAt e span

theorem take (kind : Kind) (hkind : kind ≠ .semicolon) : Spares (take kind) :=
  (eat kind hkind).bind fun _ => pure ()

theorem expect (kind : Kind) (hkind : kind ≠ .semicolon) : Spares (expect kind) := by
  refine (eat kind hkind).bind fun found => ?_
  split
  · exact pure ()
  · exact current.bind fun here => report _

theorem nameAt {c : Cursor} (hkind : c.current ≠ .semicolon) : Spares (nameAt c) :=
  (intern _).bind fun _ => (take _ hkind).bind fun _ => pure _

theorem nameOr (missing : Kind → SyntaxError) : Spares (nameOr missing) := by
  refine look.bind fun c => ?_
  split
  next hname =>
    refine nameAt fun hsemicolon => ?_
    rw [hsemicolon] at hname
    cases hname
  next => exact (report _).bind fun _ => (intern _).bind fun _ => currentSpan.bind fun _ => pure _

theorem whenAt (kind : Kind) (hx : Spares x) : Spares (whenAt kind x) := by
  refine (sees kind).bind fun found => ?_
  split
  · exact hx.map
  · exact pure none

theorem unlessAt (kind : Kind) (hx : Spares x) : Spares (unlessAt kind x) := by
  refine (sees kind).bind fun found => ?_
  split
  · exact pure none
  · exact hx.map

theorem after (kind : Kind) (hkind : kind ≠ .semicolon) (hx : Spares x) :
    Spares (after kind x) := by
  refine (eat kind hkind).bind fun found => ?_
  split
  · exact hx.map
  · exact pure none

theorem moreItems (hx : Spares x) : Spares (moreItems x) := by
  refine remaining.bind fun bound => ?_
  induction bound with
  | zero => exact pure []
  | succ bound ih =>
    refine (eat .comma nofun).bind fun found => ?_
    split
    · exact hx.bind fun first => ih.bind fun rest => pure (first :: rest)
    · exact pure []

theorem itemsAt (kind : Kind) (hx : Spares x) : Spares (itemsAt kind x) := by
  refine remaining.bind fun bound => ?_
  induction bound with
  | zero => exact pure []
  | succ bound ih =>
    refine (sees kind).bind fun found => ?_
    split
    · exact hx.bind fun first => ih.bind fun rest => pure (first :: rest)
    · exact pure []

end Spares

section Expressions

variable {expr : Nat → ParserM Expr}

theorem spares_expressionList (h : ∀ least, Spares (expr least)) : Spares (expressionList expr) :=
  (h 0).bind fun _ => (Spares.moreItems (h 0)).bind fun _ => .pure _

theorem spares_callArguments (h : ∀ least, Spares (expr least)) : Spares (callArguments expr) := by
  refine (Spares.expect .leftParen nofun).bind fun _ => ?_
  refine (Spares.unlessAt .rightParen (spares_expressionList h)).bind fun _ => ?_
  exact (Spares.expect .rightParen nofun).bind fun _ => .pure _

theorem spares_braces (h : ∀ least, Spares (expr least)) : Spares (braces expr) := by
  refine Spares.currentSpan.bind fun start => ?_
  refine (Spares.expect .leftBrace nofun).bind fun _ => ?_
  refine (Spares.eat .rightBrace nofun).bind fun found => ?_
  split
  · exact (Spares.spanFrom start).bind fun _ => (Spares.reportAt _ _).bind fun _ => .pure _
  refine (h 0).bind fun first => ?_
  refine (Spares.eat .leftBrace nofun).bind fun found => ?_
  split
  · refine (spares_expressionList h).bind fun elements => ?_
    refine (Spares.expect .rightBrace nofun).bind fun _ => ?_
    refine (Spares.expect .rightBrace nofun).bind fun _ => ?_
    exact (Spares.spanFrom start).bind fun _ => .pure _
  · refine (Spares.moreItems (h 0)).bind fun more => ?_
    refine (Spares.expect .rightBrace nofun).bind fun _ => ?_
    exact (Spares.spanFrom start).bind fun _ => .pure _

theorem spares_scopedName : Spares scopedName := by
  refine Spares.currentSpan.bind fun start => ?_
  refine (Spares.nameOr _).bind fun first => ?_
  refine (Spares.eat .colonColon nofun).bind fun found => ?_
  split
  · exact (Spares.nameOr _).bind fun _ => (Spares.spanFrom start).bind fun _ => .pure _
  · exact .pure _

theorem spares_nameOrCall (h : ∀ least, Spares (expr least)) : Spares (nameOrCall expr) := by
  refine Spares.currentSpan.bind fun start => ?_
  refine spares_scopedName.bind fun name => ?_
  refine (Spares.sees .leftParen).bind fun called => ?_
  split
  · exact (spares_callArguments h).bind fun _ => (Spares.spanFrom start).bind fun _ => .pure _
  · exact .pure _

theorem spares_systemCall (h : ∀ least, Spares (expr least)) {c : Cursor}
    (hkind : c.current ≠ .semicolon) : Spares (systemCall expr c) := by
  refine (Spares.nameAt hkind).bind fun name => ?_
  refine (Spares.whenAt .leftParen (spares_callArguments h)).bind fun args => ?_
  exact (Spares.spanFrom _).bind fun _ => .pure _

/-- Where an operand is missing, a semicolon stays. -/
theorem spares_noOperand : Spares noOperand := by
  refine Spares.look.bind fun c => ?_
  refine (Spares.reportAt _ _).bind fun _ => ?_
  split
  next => exact .pure _
  next hends =>
    refine (Spares.take c.current fun hsemicolon => ?_).bind fun _ => .pure _
    rw [hsemicolon] at hends
    exact hends rfl

theorem spares_operand (h : ∀ least, Spares (expr least)) : Spares (operand expr) := by
  refine Spares.look.bind fun c => ?_
  dsimp only
  split
  next op hop =>
    have hother : c.current ≠ .semicolon := by
      rw [← Kind.kind_of_unaryOp? hop]
      cases op <;> nofun
    refine (Spares.take _ hother).bind fun _ => (h _).bind fun inner => ?_
    exact (Spares.merge _ _).bind fun _ => .pure _
  next =>
    split
    next hkind => exact (Spares.take _ (by rw [hkind]; nofun)).bind fun _ => .pure _
    next hkind => exact (Spares.take _ (by rw [hkind]; nofun)).bind fun _ => .pure _
    next hkind => exact (Spares.take _ (by rw [hkind]; nofun)).bind fun _ => .pure _
    next => exact (Spares.take .realLiteral nofun).bind fun _ => .pure _
    next => exact (Spares.take .stringLiteral nofun).bind fun _ => .pure _
    next => exact (Spares.take .error nofun).bind fun _ => .pure _
    next =>
      refine (Spares.take .leftParen nofun).bind fun _ => (h 0).bind fun inner => ?_
      refine (Spares.expect .rightParen nofun).bind fun _ => ?_
      exact (Spares.spanFrom _).bind fun _ => .pure _
    next => exact spares_braces h
    next hkind => exact spares_systemCall h (by rw [hkind]; nofun)
    next => exact spares_nameOrCall h
    next => exact spares_nameOrCall h
    next => exact spares_noOperand

private theorem spares_second (h : ∀ least, Spares (expr least)) (kind : Kind)
    (hkind : kind ≠ .semicolon) (base : Expr) (f : Expr → Span → Expr) :
    Spares (do
      take kind
      let e ← expr 0
      expect .rightBracket
      return f e (← spanFrom base.span)) := by
  refine (Spares.take kind hkind).bind fun _ => (h 0).bind fun e => ?_
  refine (Spares.expect .rightBracket nofun).bind fun _ => ?_
  exact (Spares.spanFrom _).bind fun _ => .pure _

theorem spares_selectOf (h : ∀ least, Spares (expr least)) (base : Expr) :
    Spares (selectOf expr base) := by
  refine (Spares.expect .leftBracket nofun).bind fun _ => (h 0).bind fun first => ?_
  refine Spares.current.bind fun kind => ?_
  split
  · exact spares_second h .plusColon nofun base (.partSelect base first true)
  · exact spares_second h .minusColon nofun base (.partSelect base first false)
  · exact spares_second h .colon nofun base (.rangeSelect base first)
  · refine (Spares.expect .rightBracket nofun).bind fun _ => ?_
    exact (Spares.spanFrom _).bind fun _ => .pure _

theorem spares_dottedName : Spares dottedName :=
  (Spares.take .dot nofun).bind fun _ => Spares.nameOr _

theorem spares_memberOf (base : Expr) : Spares (memberOf base) := by
  unfold memberOf
  split
  · refine (Spares.itemsAt .dot spares_dottedName).bind fun more => ?_
    exact (Spares.spanFrom _).bind fun _ => .pure _
  · refine (Spares.itemsAt .dot spares_dottedName).bind fun more => ?_
    exact (Spares.spanFrom _).bind fun _ => .pure _
  · exact (Spares.report _).bind fun _ => spares_dottedName.bind fun _ => .pure _

theorem spares_extend (h : ∀ least, Spares (expr least)) (least bound : Nat) (left : Expr) :
    Spares (extend expr least bound left) := by
  induction bound generalizing left with
  | zero => exact .pure _
  | succ bound ih =>
    refine Spares.current.bind fun kind => ?_
    split
    · split
      · refine (Spares.take .question nofun).bind fun _ => (h 0).bind fun thenExpr => ?_
        refine (Spares.expect .colon nofun).bind fun _ => (h 0).bind fun elseExpr => ?_
        exact (Spares.merge _ _).bind fun _ => ih _
      · exact .pure _
    · exact (spares_selectOf h left).bind fun _ => ih _
    · exact (spares_memberOf left).bind fun _ => ih _
    · split
      next => exact .pure _
      next op hop =>
        have hother : kind ≠ .semicolon := by
          rw [← Kind.kind_of_binaryOp? hop]
          cases op <;> nofun
        split
        · exact .pure _
        · refine (Spares.take kind hother).bind fun _ => (h _).bind fun right => ?_
          exact (Spares.merge _ _).bind fun _ => ih _

theorem spares_expressionWithin (bound least : Nat) : Spares (expressionWithin bound least) := by
  induction bound generalizing least with
  | zero => exact spares_noOperand
  | succ bound ih => exact (spares_operand ih).bind fun left => spares_extend ih least bound left

theorem spares_expression : Spares expression :=
  Spares.remaining.bind fun _ => spares_expressionWithin _ 0

end Expressions

section Statements

theorem spares_packedRange : Spares packedRange := by
  refine Spares.currentSpan.bind fun start => ?_
  refine (Spares.take .leftBracket nofun).bind fun _ => spares_expression.bind fun msb => ?_
  refine (Spares.expect .colon nofun).bind fun _ => spares_expression.bind fun lsb => ?_
  refine (Spares.expect .rightBracket nofun).bind fun _ => ?_
  exact (Spares.spanFrom start).bind fun _ => .pure _

theorem spares_signingHere : Spares signingHere := by
  refine Spares.current.bind fun kind => ?_
  split
  · exact Spares.currentSpan.bind fun _ => (Spares.take (.signing _) nofun).bind fun _ => .pure _
  · exact .pure _

theorem spares_dataTypeOf (kind : BuiltinType) : Spares (dataTypeOf kind) := by
  refine Spares.currentSpan.bind fun start => ?_
  refine (Spares.take (.dataType kind) nofun).bind fun _ => ?_
  refine spares_signingHere.bind fun signing => ?_
  refine (Spares.itemsAt .leftBracket spares_packedRange).bind fun packed => ?_
  exact (Spares.spanFrom start).bind fun _ => .pure _

theorem spares_paramValue : Spares paramValue := by
  refine Spares.current.bind fun kind => ?_
  split
  · exact (spares_dataTypeOf _).bind fun _ => .pure _
  · exact spares_expression.bind fun _ => .pure _

theorem spares_paramItem : Spares paramItem := by
  refine Spares.currentSpan.bind fun start => ?_
  refine (Spares.eat .dot nofun).bind fun found => ?_
  split
  · refine (Spares.nameOr _).bind fun name => ?_
    refine (Spares.expect .leftParen nofun).bind fun _ => ?_
    refine (Spares.unlessAt .rightParen spares_paramValue).bind fun value => ?_
    refine (Spares.expect .rightParen nofun).bind fun _ => ?_
    exact (Spares.spanFrom start).bind fun _ => .pure _
  · exact spares_paramValue.bind fun _ => .pure _

theorem spares_keepForm {α β : Type} (form : α → Option β) (e : SyntaxError)
    (items : List (α × Span)) : Spares (keepForm form e items) := by
  induction items with
  | nil => exact .pure _
  | cons item items ih =>
    unfold keepForm
    split
    · exact ih.bind fun _ => .pure _
    · exact (Spares.reportAt _ _).bind fun _ => ih

theorem spares_paramList : Spares paramList := by
  refine spares_paramItem.bind fun first => ?_
  have hitem : Spares paramItemWithSpan :=
    Spares.currentSpan.bind fun _ => spares_paramItem.bind fun _ => .pure _
  refine (Spares.moreItems hitem).bind fun rest => ?_
  split <;> exact (spares_keepForm _ _ _).bind fun _ => .pure _

theorem spares_paramClause : Spares paramClause := by
  refine Spares.currentSpan.bind fun start => ?_
  refine (Spares.expect .hash nofun).bind fun _ => ?_
  refine (Spares.expect .leftParen nofun).bind fun _ => ?_
  refine (Spares.unlessAt .rightParen spares_paramList).bind fun list => ?_
  refine (Spares.expect .rightParen nofun).bind fun _ => ?_
  exact (Spares.spanFrom start).bind fun _ => .pure _

theorem spares_attributeSpec : Spares attributeSpec := by
  refine Spares.currentSpan.bind fun start => ?_
  refine (Spares.nameOr _).bind fun name => ?_
  refine (Spares.after .equals nofun spares_expression).bind fun value => ?_
  exact (Spares.spanFrom start).bind fun _ => .pure _

theorem spares_attributeGroup : Spares attributeGroup := by
  refine Spares.currentSpan.bind fun start => ?_
  refine (Spares.take .attrOpen nofun).bind fun _ => spares_attributeSpec.bind fun first => ?_
  refine (Spares.moreItems spares_attributeSpec).bind fun more => ?_
  refine (Spares.expect .attrClose nofun).bind fun _ => ?_
  exact (Spares.spanFrom start).bind fun _ => .pure _

theorem spares_portTarget : Spares portTarget := by
  refine (Spares.eat .star nofun).bind fun found => ?_
  split
  · exact .pure _
  refine (Spares.nameOr _).bind fun name => ?_
  refine (Spares.eat .leftParen nofun).bind fun found => ?_
  split
  · refine (Spares.unlessAt .rightParen spares_expression).bind fun actual => ?_
    exact (Spares.expect .rightParen nofun).bind fun _ => .pure _
  · exact .pure _

theorem spares_portItem : Spares portItem := by
  refine Spares.currentSpan.bind fun start => Spares.look.bind fun c => ?_
  refine (Spares.itemsAt .attrOpen spares_attributeGroup).bind fun attributes => ?_
  refine (Spares.eat .dot nofun).bind fun found => ?_
  split
  · exact spares_portTarget.bind fun _ => (Spares.spanFrom start).bind fun _ => .pure _
  · have hexpr := Spares.unlessAt .comma (Spares.unlessAt .rightParen spares_expression)
    exact hexpr.bind fun _ => (Spares.spanSince start _).bind fun _ => .pure _

theorem spares_portList : Spares portList := by
  refine (Spares.sees .rightParen).bind fun found => ?_
  split
  · exact .pure _
  refine spares_portItem.bind fun first => ?_
  refine (Spares.moreItems spares_portItem).bind fun rest => ?_
  dsimp only
  split <;> exact (spares_keepForm _ _ _).bind fun _ => .pure _

theorem spares_dimension : Spares dimension := by
  refine Spares.currentSpan.bind fun start => ?_
  refine (Spares.take .leftBracket nofun).bind fun _ => spares_expression.bind fun first => ?_
  refine (Spares.eat .colon nofun).bind fun found => ?_
  split
  · refine spares_expression.bind fun lsb => ?_
    refine (Spares.expect .rightBracket nofun).bind fun _ => ?_
    exact (Spares.spanFrom start).bind fun _ => .pure _
  · refine (Spares.expect .rightBracket nofun).bind fun _ => ?_
    exact (Spares.spanFrom start).bind fun _ => .pure _

theorem spares_instanceName : Spares instanceName := by
  refine Spares.currentSpan.bind fun start => Spares.look.bind fun c => ?_
  refine (Spares.nameOr _).bind fun name => ?_
  refine (Spares.itemsAt .leftBracket spares_dimension).bind fun dimensions => ?_
  exact (Spares.spanSince start _).bind fun _ => .pure _

theorem spares_connections : Spares connections := by
  refine (Spares.eat .leftParen nofun).bind fun found => ?_
  split
  · exact spares_portList.bind fun _ => (Spares.expect .rightParen nofun).bind fun _ => .pure _
  · exact Spares.current.bind fun _ => (Spares.report _).bind fun _ => .pure _

theorem spares_hierarchicalInstance : Spares hierarchicalInstance := by
  refine Spares.currentSpan.bind fun start => spares_instanceName.bind fun name => ?_
  refine spares_connections.bind fun ports => ?_
  exact (Spares.spanFrom start).bind fun _ => .pure _

end Statements

/-- The tokens before the first semicolon ahead, and it; no word that opens or closes a unit and no
end of the text comes before it. -/
structure Cursor.EndsAt (c : Cursor) (before : List Token) (semicolon : Token) : Prop where
  ahead : before ++ [semicolon] <+: c.rest
  plain : ∀ t ∈ before, t.kind ≠ .semicolon ∧ t.kind.isUnitBoundary = false ∧ t.kind ≠ .eof
  closes : semicolon.kind = .semicolon

/-- The parser consumes just the tokens through the first semicolon. -/
def Resyncs (x : ParserM α) : Prop :=
  ∀ (c : Cursor) (s : Session) (before : List Token) (semicolon : Token),
    c.EndsAt before semicolon → c.Passes (before ++ [semicolon]) ((x.task c).run s).1.2

namespace Resyncs

variable {x : ParserM α} {f : α → ParserM β}

/-- Behind a parser that consumes no semicolon, the first one is still ahead. -/
theorem bind (hx : Spares x) (hf : ∀ a, Resyncs (f a)) : Resyncs (x >>= f) := by
  intro c s before semicolon hends
  rcases hrun : (x.task c).run s with ⟨⟨a, c'⟩, t⟩
  obtain ⟨ts, hpasses⟩ := Cursor.Passes.exists_run x c s
  have hspared := hx c s ts hpasses
  rw [hrun] at hpasses
  obtain ⟨after, hrest⟩ := hends.ahead
  rw [hpasses.rest, List.append_assoc] at hrest
  obtain ⟨left, hbefore, hleft⟩ : ∃ left, before = ts ++ left ∧
      c'.rest = left ++ ([semicolon] ++ after) := by
    rcases List.append_eq_append_iff.mp hrest with ⟨more, hts, hmore⟩ | hbehind
    · cases more with
      | nil => exact ⟨[], by rw [hts, List.append_nil, List.append_nil], hmore.symm⟩
      | cons u us =>
        obtain ⟨rfl, -⟩ := List.cons_eq_cons.mp hmore
        exact absurd hends.closes (hspared semicolon (by simp [hts]))
    · exact hbehind
  have hlater : c'.EndsAt left semicolon := by
    refine ⟨⟨after, ?_⟩, fun t ht => hends.plain t ?_, hends.closes⟩
    · rw [hleft, List.append_assoc]
    · rw [hbefore]
      exact List.mem_append_right ts ht
  rw [run_bind hrun, hbefore, List.append_assoc]
  exact hpasses.trans (hf a c' t left semicolon hlater)

/-- What comes behind the semicolon consumes nothing. -/
theorem last (hx : Resyncs x) (hf : ∀ a, Silent (f a)) : Resyncs (x >>= f) := by
  intro c s before semicolon hends
  rcases hrun : (x.task c).run s with ⟨⟨a, c'⟩, t⟩
  have hpasses := hx c s before semicolon hends
  obtain ⟨b, c'', hreads⟩ := hf a c' t
  rw [hrun] at hpasses
  rw [run_bind hrun, hreads.run]
  have hthrough := hpasses.trans hreads.passes
  rwa [List.append_nil] at hthrough

theorem map {g : α → β} (hx : Resyncs x) : Resyncs (g <$> x) := hx.last fun a => .pure (g a)

end Resyncs

/-- All before the semicolon is skipped. -/
theorem resyncs_recoverToSemicolon : Resyncs recoverToSemicolon := by
  intro c s before semicolon ⟨⟨after, hrest⟩, hplain, hcloses⟩
  have hskipped := Cursor.Passes.skipUntil c fun kind => kind = .semicolon || kind.isUnitBoundary
  have hbefore : c.rest.takeWhile (fun t => t.kind ≠ .eof &&
      !(decide (t.kind = .semicolon) || t.kind.isUnitBoundary)) = before := by
    rw [← hrest, List.append_assoc, List.takeWhile_append_of_pos, List.singleton_append,
      List.takeWhile_cons_of_neg (by simp [hcloses]), List.append_nil]
    intro t ht
    obtain ⟨hother, hinside, heof⟩ := hplain t ht
    simp [hother, hinside, heof]
  rw [hbefore] at hskipped
  have hleft : (c.skipUntil fun kind => kind = .semicolon || kind.isUnitBoundary).rest =
      semicolon :: after := by
    rw [hskipped.rest, List.append_assoc] at hrest
    exact (List.append_cancel_left hrest).symm
  obtain ⟨c', -, hreads⟩ := Reads.eat (s := s) hleft hcloses (by decide)
  rw [recoverToSemicolon, run_bind (skipUntil_run _ c s), run_bind hreads.run]
  exact hskipped.trans hreads.passes

theorem resyncs_endOfStatement : Resyncs endOfStatement := by
  intro c s before semicolon hends
  obtain ⟨after, hrest⟩ := hends.ahead
  cases before with
  | nil =>
    obtain ⟨c', -, hreads⟩ := Reads.eat (s := s) hrest.symm hends.closes (by decide)
    rw [endOfStatement, run_bind hreads.run]
    exact hreads.passes
  | cons t before =>
    have hother : c.current ≠ .semicolon := by
      rw [current_of_rest hrest.symm]
      exact (hends.plain t List.mem_cons_self).1
    rw [endOfStatement, run_bind (Reads.eat_other hother).run]
    refine Resyncs.bind Spares.current (fun found => ?_) c s _ semicolon hends
    exact Resyncs.bind (Spares.report _) fun _ => resyncs_recoverToSemicolon

theorem resyncs_instantiation : Resyncs instantiation := by
  refine Resyncs.bind Spares.currentSpan fun start => ?_
  refine Resyncs.bind (Spares.nameOr _) fun module => ?_
  refine Resyncs.bind (Spares.whenAt .hash spares_paramClause) fun params => ?_
  refine Resyncs.bind spares_hierarchicalInstance fun first => ?_
  refine Resyncs.bind (Spares.moreItems spares_hierarchicalInstance) fun more => ?_
  exact resyncs_endOfStatement.last fun _ => (Silent.spanFrom start).bind fun _ => .pure _

theorem resyncs_instantiationItem : Resyncs instantiationItem := by
  refine Resyncs.bind Spares.currentSpan fun start => ?_
  refine Resyncs.bind Spares.look fun c => ?_
  refine resyncs_instantiation.last fun stmt => Silent.look.bind fun c' => ?_
  split
  · exact (Silent.spanFrom start).bind fun _ => .pure _
  · exact .pure _

theorem Cursor.EndsAt.of_rest {c d : Cursor} {before : List Token} {semicolon : Token}
    (h : c.EndsAt before semicolon) (hrest : d.rest = c.rest) : d.EndsAt before semicolon :=
  ⟨hrest ▸ h.ahead, h.plain, h.closes⟩

section Items

variable {c d : Cursor} {before : List Token} {semicolon : Token}

/-- An item that cannot be understood ends at its semicolon, and there some token was consumed. -/
theorem passes_brokenItem (hends : d.EndsAt before semicolon) (hconsumed : d.consumed = c.consumed)
    (s : Session) :
    d.Passes (before ++ [semicolon]) (((brokenItem c).task d).run s).1.2 := by
  have hresyncs : Resyncs (do report .expectedInstantiation; recoverToSemicolon) :=
    Resyncs.bind (Spares.report _) fun _ => resyncs_recoverToSemicolon
  have hthrough := hresyncs d s before semicolon hends
  rcases hreport : ((report .expectedInstantiation).task d).run s with ⟨⟨_, d₁⟩, t⟩
  rcases hrecover : (recoverToSemicolon.task d₁).run t with ⟨⟨_, d₂⟩, u⟩
  rw [run_bind hreport, hrecover] at hthrough
  have hmore : d₂.consumed ≠ c.consumed := by
    have hcount : d₂.consumed = d.consumed + (before ++ [semicolon]).length := hthrough.consumed
    rw [List.length_append, List.length_singleton] at hcount
    omega
  have htake : ((takeSome c).task d₂).run u = (((), d₂), u) := by
    rw [takeSome, run_bind Reads.look.run, if_neg hmore]
    rfl
  obtain ⟨span, d₃, hspan⟩ := Silent.spanFrom c.currentSpan d₂ u
  rw [brokenItem, run_bind hreport, run_bind hrecover, run_bind htake, run_bind hspan.run]
  have hall := hthrough.trans hspan.passes
  rwa [List.append_nil] at hall

theorem passes_otherItem (hends : c.EndsAt before semicolon) (s : Session)
    (hparsed : ∀ leading span, (((otherItem c).task c).run s).1.1 ≠ .skipped leading span) :
    c.Passes (before ++ [semicolon]) (((otherItem c).task c).run s).1.2 := by
  unfold otherItem at hparsed ⊢
  dsimp only at hparsed ⊢
  by_cases hstarts : c.startsOtherItem = true
  · rw [if_pos hstarts] at hparsed ⊢
    rcases hskip : ((skipItem c).task c).run s with ⟨⟨_, c'⟩, t⟩
    obtain ⟨ts, hpasses⟩ := Cursor.Passes.exists_run (skipItem c) c s
    rw [hskip] at hpasses
    dsimp only at hpasses
    rw [run_bind hskip, run_bind Reads.look.run] at hparsed ⊢
    by_cases hmore : c'.consumed > c.consumed
    · rw [if_pos hmore] at hparsed
      obtain ⟨span, c'', hspan⟩ := Silent.spanFrom c.currentSpan c' t
      rw [run_bind hspan.run] at hparsed
      exact absurd rfl (hparsed c.currentSpan span)
    · rw [if_neg hmore]
      have hnil : ts = [] := by
        have hcount : c'.consumed = c.consumed + ts.length := hpasses.consumed
        exact List.length_eq_zero_iff.mp (by omega)
      subst hnil
      have hstay := hpasses.rest.symm
      exact hpasses.trans (passes_brokenItem (hends.of_rest hstay) hpasses.consumed t)
  · rw [if_neg hstarts]
    exact passes_brokenItem hends rfl s

/-- An item that is not passed over ends at the first semicolon, whatever stands before it: just the
tokens through it are consumed. -/
theorem statement_resyncs (c : Cursor) (s : Session) (before : List Token) (semicolon : Token)
    (hends : c.EndsAt before semicolon)
    (hparsed : ∀ leading span, (((item? c).task c).run s).1.1 ≠ some (.skipped leading span)) :
    c.Passes (before ++ [semicolon]) (((item? c).task c).run s).1.2 := by
  obtain ⟨after, hrest⟩ := hends.ahead
  cases before with
  | nil =>
    obtain ⟨c', -, hreads⟩ := Reads.eat (s := s) hrest.symm hends.closes (by decide)
    rw [item?, run_bind hreads.run]
    exact hreads.passes
  | cons t before =>
    have hother : c.current ≠ .semicolon := by
      rw [current_of_rest hrest.symm]
      exact (hends.plain t List.mem_cons_self).1
    rw [item?, run_bind (Reads.eat_other hother).run] at hparsed ⊢
    by_cases hstarts : (c.current.isIdentifier && continuesInstantiation c.rest.tail) = true
    · rw [if_neg Bool.false_ne_true, if_pos hstarts]
      exact resyncs_instantiationItem.map c s _ semicolon hends
    · rw [if_neg Bool.false_ne_true, if_neg hstarts] at hparsed ⊢
      rcases hrun : ((otherItem c).task c).run s with ⟨⟨item, c'⟩, u⟩
      have hmap : ((some <$> otherItem c).task c).run s = ((some item, c'), u) := run_bind hrun
      have hpasses := passes_otherItem hends s
      rw [hrun] at hpasses
      rw [hmap] at hparsed ⊢
      exact hpasses fun leading span heq => hparsed leading span (congrArg some heq)

/-- Inside its open parenthesis the first of two statements breaks off at its semicolon. -/
theorem statement_resyncs_open : ∃ c : Cursor, c.rest = (lex 0 "a u(; b v();").1 ∧
    c.Passes ((lex 0 "a u(; b v();").1.take 3 ++ [⟨.semicolon, ";", 4, 5⟩])
      (((item? c).task c).run {}).1.2 := by
  obtain ⟨c, hc⟩ : ∃ c : Cursor, c = { file := 0, rest := (lex 0 "a u(; b v();").1 } := ⟨_, rfl⟩
  have hparsed : (((item? c).task c).run {}).1.1.any
      (fun item => match item with | .skipped _ _ => true | _ => false) = false := by
    subst hc
    decide +kernel
  refine ⟨c, by rw [hc], statement_resyncs c {} _ _ ⟨?_, ?_, rfl⟩ fun leading span heq => ?_⟩
  · rw [hc]
    exact ⟨(lex 0 "a u(; b v();").1.drop 4, by decide +kernel⟩
  · decide +kernel
  · rw [heq] at hparsed
    cases hparsed

end Items

end Netlist.Parser
