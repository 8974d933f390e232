import Netlist.Proofs.Parser.Ensures.Expression
import Netlist.Proofs.Syntax.Statement

/-!
The parsers of statements give only trees that are written with the tokens they read. Items of a
list are read before it is known which form the list has; those that are kept are all that were
read, since each other one is reported.
-/
namespace Netlist.Parser

open List (Forall₂)
open Syntax

variable {file : Nat} {N : Names} {r : List Token}

theorem ensures_packedRange (hkind : headKind r = .leftBracket) :
    Ensures file N r packedRange fun range ts _ => range.Sentence (.ofNames N file) ts := by
  refine .silent .currentSpan fun start => .take hkind (by decide) fun opening r₁ _ hopening => ?_
  refine ensures_expression.bind fun msb ms r₂ _ hmsb => ?_
  refine .expect (by decide) fun colon r₃ _ hcolon => ?_
  refine ensures_expression.bind fun lsb ls r₄ _ hlsb => ?_
  refine .expect (by decide) fun closing r₅ _ hclosing => .silent (.spanFrom _) fun span => ?_
  exact .pure (.mk hopening hmsb hcolon hlsb hclosing)

theorem ensures_signingHere :
    Ensures file N r signingHere fun signing ts _ => Optionally IsSigning signing ts := by
  refine .current ?_
  split
  next s hkind =>
    refine .silent .currentSpan fun span => .take hkind ⟨nofun, nofun⟩ fun t r₁ _ ht => ?_
    exact .pure (.some (.mk ht))
  next => exact .pure .none

theorem ensures_dataTypeOf {kind : BuiltinType} (hkind : headKind r = .dataType kind) :
    Ensures file N r (dataTypeOf kind) fun type ts _ => type.Sentence (.ofNames N file) ts := by
  refine .silent .currentSpan fun start => .take hkind ⟨nofun, nofun⟩ fun t r₁ _ ht => ?_
  refine ensures_signingHere.bind fun signing ss r₂ _ hsigning => ?_
  have hpacked : Ensures file N r₂ (itemsAt .leftBracket packedRange) fun packed ps _ =>
      Strung (Range.Sentence (.ofNames N file)) packed ps :=
    .itemsAt fun r' _ hr' => ensures_packedRange hr'
  refine hpacked.bind fun packed ps r₃ _ hpacked => .silent (.spanFrom _) fun span => .pure ?_
  rw [List.append_nil]
  exact .mk ht hsigning hpacked

theorem ensures_paramValue :
    Ensures file N r paramValue fun value ts _ => value.Sentence (.ofNames N file) ts := by
  refine .current ?_
  split
  next kind hkind => exact .map ((ensures_dataTypeOf hkind).mono fun _ _ _ _ h => .dataType h)
  next => exact .map (ensures_expression.mono fun _ _ _ _ h => .expr h)

/-- An item of a parameter list and its tokens. -/
inductive ParamItem.Sentence (W : Writing) : ParamItem → List Token → Prop
  | ordered {value : ParamValue} {ts : List Token} : value.Sentence W ts →
      Sentence W (.ordered value) ts
  | named {item : NamedParam} {ts : List Token} : item.Sentence W ts → Sentence W (.named item) ts

theorem ensures_paramItem :
    Ensures file N r paramItem fun item ts _ => item.Sentence (.ofNames N file) ts := by
  refine .silent .currentSpan fun start => .eat (by decide) (fun dot r₁ _ hdot => ?_) fun _ => ?_
  · refine ensures_nameOr.bind fun name is r₂ _ hname => ?_
    refine .expect (by decide) fun opening r₃ _ hopening => ?_
    have hvalue : Ensures file N r₃ (unlessAt .rightParen paramValue) fun value vs _ =>
        Optionally (ParamValue.Sentence (.ofNames N file)) value vs :=
      .unlessAt (fun _ => .none) fun _ => ensures_paramValue.mono fun _ _ _ _ h => .some h
    refine hvalue.bind fun value vs r₄ _ hvalue => ?_
    refine .expect (by decide) fun closing r₅ _ hclosing => .silent (.spanFrom _) fun span => ?_
    exact .pure (.named (.mk hdot hname hopening hvalue hclosing))
  · exact .map (ensures_paramValue.mono fun _ _ _ _ h => .ordered h)

/-- Where nothing is reported all items have the form. -/
theorem ensures_keepForm {α β : Type} {form : α → Option β} {e : SyntaxError}
    {items : List (α × Span)} :
    Ensures file N r (keepForm form e items) fun kept ts _ =>
      ts = [] ∧ Forall₂ (fun item b => form item.1 = some b) items kept := by
  induction items with
  | nil => exact .pure ⟨rfl, .nil⟩
  | cons item items ih =>
    unfold keepForm
    split
    next b hb =>
      refine ih.bind fun kept us r₁ _ hkept => ?_
      obtain ⟨rfl, hkept⟩ := hkept
      exact .pure ⟨rfl, .cons hb hkept⟩
    next => exact .reportAt

theorem ensures_paramList :
    Ensures file N r paramList fun list ts _ => list.Sentence (.ofNames N file) ts := by
  refine ensures_paramItem.bind fun first us r₁ _ hfirst => ?_
  have hrest : Ensures file N r₁ (moreItems paramItemWithSpan) fun items vs _ =>
      Following (fun item ts => item.1.Sentence (.ofNames N file) ts) items vs :=
    .moreItems fun r' _ => .silent .currentSpan fun span => .map ensures_paramItem
  refine hrest.bind fun items vs r₂ _ hitems => ?_
  cases hfirst with
  | ordered hvalue =>
    refine ensures_keepForm.bind fun kept ws r₃ _ hkept => .pure ?_
    obtain ⟨rfl, hkept⟩ := hkept
    simp only [List.append_nil]
    refine .ordered (.mk hvalue (hitems.of_forall₂ hkept ?_))
    rintro ⟨_, _⟩ value ts (hvalue | _) hform
    · cases hform
      exact hvalue
    · cases hform
  | named hitem =>
    refine ensures_keepForm.bind fun kept ws r₃ _ hkept => .pure ?_
    obtain ⟨rfl, hkept⟩ := hkept
    simp only [List.append_nil]
    refine .named (.mk hitem (hitems.of_forall₂ hkept ?_))
    rintro ⟨_, _⟩ value ts (_ | hitem) hform
    · cases hform
    · cases hform
      exact hitem

theorem ensures_paramClause :
    Ensures file N r paramClause fun clause ts _ => clause.Sentence (.ofNames N file) ts := by
  refine .silent .currentSpan fun start => .expect (by decide) fun hash r₁ _ hhash => ?_
  refine .expect (by decide) fun opening r₂ _ hopening => ?_
  have hlist : Ensures file N r₂ (unlessAt .rightParen paramList) fun list ts _ =>
      Optionally (ParamList.Sentence (.ofNames N file)) list ts :=
    .unlessAt (fun _ => .none) fun _ => ensures_paramList.mono fun _ _ _ _ h => .some h
  refine hlist.bind fun list us r₃ _ hlist => ?_
  refine .expect (by decide) fun closing r₄ _ hclosing => .silent (.spanFrom _) fun span => ?_
  exact .pure (.mk hhash hopening hlist hclosing)

theorem ensures_attributeSpec :
    Ensures file N r attributeSpec fun spec ts _ => spec.Sentence (.ofNames N file) ts := by
  refine .silent .currentSpan fun start => ensures_nameOr.bind fun name is r₁ _ hname => ?_
  have hvalue : Ensures file N r₁ (after .equals expression) fun value vs _ =>
      value = none ∧ vs = [] ∨ ∃ e equals ts, value = some e ∧ vs = equals :: ts ∧
        equals.kind = .equals ∧ e.Sentence (.ofNames N file) ts :=
    .after (by decide) (fun _ => .inl ⟨rfl, rfl⟩) fun equals r₂ _ hequals =>
      ensures_expression.mono fun e ts _ _ he => .inr ⟨e, equals, ts, rfl, rfl, hequals, he⟩
  refine hvalue.bind fun value vs r₂ _ hvalue => .silent (.spanFrom _) fun span => .pure ?_
  rw [List.append_nil]
  rcases hvalue with ⟨rfl, rfl⟩ | ⟨e, equals, ts, rfl, rfl, hequals, he⟩
  · rw [List.append_nil]
    exact .bare hname rfl
  · exact .valued hname hequals rfl he

theorem ensures_attributeGroup (hkind : headKind r = .attrOpen) :
    Ensures file N r attributeGroup fun attr ts _ => attr.Sentence (.ofNames N file) ts := by
  refine .silent .currentSpan fun start => .take hkind (by decide) fun opening r₁ _ hopening => ?_
  refine ensures_attributeSpec.bind fun first us r₂ _ hfirst => ?_
  have hmore : Ensures file N r₂ (moreItems attributeSpec) fun specs vs _ =>
      Following (AttributeSpec.Sentence (.ofNames N file)) specs vs :=
    .moreItems fun r' _ => ensures_attributeSpec
  refine hmore.bind fun specs vs r₃ _ hspecs => .expect (by decide) fun closing r₄ _ hclosing => ?_
  refine .silent (.spanFrom _) fun span => .pure ?_
  rw [← List.append_assoc]
  exact .mk hopening (.mk hfirst hspecs) hclosing

theorem ensures_portTarget :
    Ensures file N r portTarget fun target ts _ => target.Sentence (.ofNames N file) ts := by
  refine .eat (by decide) (fun star r₁ _ hstar => .pure (.wildcard hstar)) fun _ => ?_
  refine ensures_nameOr.bind fun name is r₂ _ hname => ?_
  refine .eat (by decide) (fun opening r₃ _ hopening => ?_) fun _ => .pure ?_
  · have hactual : Ensures file N r₃ (unlessAt .rightParen expression) fun actual es _ =>
        Optionally (Expr.Sentence (.ofNames N file)) actual es :=
      .unlessAt (fun _ => .none) fun _ => ensures_expression.mono fun _ _ _ _ h => .some h
    refine hactual.bind fun actual es r₄ _ hactual => ?_
    exact .expect (by decide) fun closing r₅ _ hclosing =>
      .pure (.connected hname hopening hactual hclosing)
  · rw [List.append_nil]
    exact .bare hname

/-- An item of a port list and its tokens. -/
inductive PortItem.Sentence (W : Writing) : PortItem → List Token → Prop
  | ordered {port : OrderedPort} {ts : List Token} : port.Sentence W ts →
      Sentence W (.ordered port) ts
  | named {port : NamedPort} {ts : List Token} : port.Sentence W ts → Sentence W (.named port) ts

/-- A blank port takes no token, and then the list goes on or ends. -/
theorem ensures_portItem :
    Ensures file N r portItem fun item ts r' => item.Sentence (.ofNames N file) ts ∧
      (ts = [] → headKind r' = .comma ∨ headKind r' = .rightParen) := by
  refine .silent .currentSpan fun start => .silent .look fun c => ?_
  have hattributes : Ensures file N r (itemsAt .attrOpen attributeGroup) fun attributes as _ =>
      Strung (Attribute.Sentence (.ofNames N file)) attributes as :=
    .itemsAt fun r' _ hr' => ensures_attributeGroup hr'
  refine hattributes.bind fun attributes as r₁ _ hattributes => ?_
  refine .eat (by decide) (fun dot r₂ _ hdot => ?_) fun _ => ?_
  · refine ensures_portTarget.bind fun target ts r₃ _ htarget => .silent (.spanFrom _) fun span => ?_
    refine .pure ⟨?_, fun hnil => ?_⟩
    · rw [List.append_nil]
      exact .named (.mk hattributes hdot htarget)
    · exact absurd (List.append_eq_nil_iff.mp hnil).2 (List.cons_ne_nil _ _)
  · have hexpr : Ensures file N r₁ (unlessAt .comma (unlessAt .rightParen expression))
        fun found es r' => Optionally (Expr.Sentence (.ofNames N file)) found.join es ∧
          (es = [] → headKind r' = .comma ∨ headKind r' = .rightParen) := by
      refine .unlessAt (fun hkind => ⟨.none, fun _ => .inl hkind⟩) fun _ => ?_
      refine .unlessAt (fun hkind => ⟨.none, fun _ => .inr hkind⟩) fun _ => ?_
      refine ensures_expression.mono fun e es _ _ he => ⟨.some he, fun hnil => ?_⟩
      obtain ⟨t, ts, rfl, -⟩ := he.2.exists_head
      exact absurd hnil (List.cons_ne_nil _ _)
    refine hexpr.bind fun found es r₂ _ hfound => .silent (.spanSince _ _) fun span => .pure ?_
    rw [List.append_nil]
    exact ⟨.ordered (.mk hattributes hfound.1), fun hnil =>
      hfound.2 (List.append_eq_nil_iff.mp hnil).2⟩

theorem ensures_portList :
    Ensures file N r portList fun list ts _ => list.Sentence (.ofNames N file) ts := by
  refine .sees (fun _ => .pure .empty) fun hkind => ?_
  refine ensures_portItem.bind fun first us r₁ hr₁ hfirst => ?_
  have hrest : Ensures file N r₁ (moreItems portItem) fun items vs _ =>
      Following (PortItem.Sentence (.ofNames N file)) items vs :=
    .moreItems fun r' _ => ensures_portItem.mono fun _ _ _ _ h => h.1
  refine (hrest.and .moreItems_eq_nil).bind fun items vs r₂ _ hitems => ?_
  have hne : us ++ vs ≠ [] := by
    intro hnil
    obtain ⟨rfl, rfl⟩ := List.append_eq_nil_iff.mp hnil
    subst hr₁
    cases hitems.1
    rcases hfirst.2 rfl with hcomma | hparen
    · exact hitems.2 rfl hcomma
    · exact hkind hparen
  cases hfirst.1 with
  | ordered hport =>
    refine ensures_keepForm.bind fun kept ws r₃ _ hkept => .pure ?_
    obtain ⟨rfl, hkept⟩ := hkept
    rw [List.forall₂_map_left_iff] at hkept
    simp only [List.append_nil]
    refine .ordered (.mk hport (hitems.1.of_forall₂ hkept ?_)) hne
    rintro _ port ts (hport | _) hform
    · cases hform
      exact hport
    · cases hform
  | named hport =>
    refine ensures_keepForm.bind fun kept ws r₃ _ hkept => .pure ?_
    obtain ⟨rfl, hkept⟩ := hkept
    rw [List.forall₂_map_left_iff] at hkept
    simp only [List.append_nil]
    refine .named (.mk hport (hitems.1.of_forall₂ hkept ?_))
    rintro _ port ts (_ | hport) hform
    · cases hform
    · cases hform
      exact hport

theorem ensures_dimension (hkind : headKind r = .leftBracket) :
    Ensures file N r dimension fun dim ts _ => dim.Sentence (.ofNames N file) ts := by
  refine .silent .currentSpan fun start => .take hkind (by decide) fun opening r₁ _ hopening => ?_
  refine ensures_expression.bind fun first us r₂ _ hfirst => ?_
  refine .eat (by decide) (fun colon r₃ _ hcolon => ?_) fun _ => ?_
  · refine ensures_expression.bind fun lsb vs r₄ _ hlsb => ?_
    refine .expect (by decide) fun closing r₅ _ hclosing => .silent (.spanFrom _) fun span => ?_
    exact .pure (.range (.mk hopening hfirst hcolon hlsb hclosing))
  · refine .expect (by decide) fun closing r₃ _ hclosing => .silent (.spanFrom _) fun span => ?_
    exact .pure (.size hopening hfirst hclosing)

theorem ensures_instanceName :
    Ensures file N r instanceName fun name ts _ => name.Sentence (.ofNames N file) ts := by
  refine .silent .currentSpan fun start => .silent .look fun c => ?_
  refine ensures_nameOr.bind fun name is r₁ _ hname => ?_
  have hdimensions : Ensures file N r₁ (itemsAt .leftBracket dimension) fun dims ds _ =>
      Strung (Dimension.Sentence (.ofNames N file)) dims ds :=
    .itemsAt fun r' _ hr' => ensures_dimension hr'
  refine hdimensions.bind fun dims ds r₂ _ hdims => .silent (.spanSince _ _) fun span => .pure ?_
  rw [List.append_nil]
  exact .mk hname hdims

theorem ensures_connections :
    Ensures file N r connections fun list ts _ => ∃ opening ps closing,
      ts = opening :: (ps ++ [closing]) ∧ opening.kind = .leftParen ∧
      list.Sentence (.ofNames N file) ps ∧ closing.kind = .rightParen := by
  refine .eat (by decide) (fun opening r₁ _ hopening => ?_) fun _ => ?_
  · refine ensures_portList.bind fun list ps r₂ _ hlist => ?_
    refine .expect (by decide) fun closing r₃ _ hclosing => ?_
    exact .pure ⟨opening, ps, closing, rfl, hopening, hlist, hclosing⟩
  · exact .current .report

theorem ensures_hierarchicalInstance :
    Ensures file N r hierarchicalInstance fun inst ts _ =>
      inst.Sentence (.ofNames N file) ts := by
  refine .silent .currentSpan fun start => ensures_instanceName.bind fun name ns r₁ _ hname => ?_
  refine ensures_connections.bind fun list vs r₂ _ hlist => ?_
  obtain ⟨opening, ps, closing, rfl, hopening, hlist, hclosing⟩ := hlist
  refine .silent (.spanFrom _) fun span => .pure ?_
  rw [List.append_nil]
  exact .mk hname hopening hlist hclosing

theorem ensures_endOfStatement :
    Ensures file N r endOfStatement fun _ ts _ => ∃ t, ts = [t] ∧ t.kind = .semicolon := by
  refine .eat (by decide) (fun t r₁ _ ht => .pure ⟨t, rfl, ht⟩) fun _ => ?_
  exact .current .report

/-- A statement that is parsed without an error is written with the tokens consumed. -/
theorem ensures_instantiation :
    Ensures file N r instantiation fun stmt ts _ => stmt.Sentence (.ofNames N file) ts := by
  refine .silent .currentSpan fun start => ensures_nameOr.bind fun name is r₁ _ hname => ?_
  have hparams : Ensures file N r₁ (whenAt .hash paramClause) fun params ps _ =>
      Optionally (ParamClause.Sentence (.ofNames N file)) params ps :=
    .whenAt (fun _ => .none) fun _ => ensures_paramClause.mono fun _ _ _ _ h => .some h
  refine hparams.bind fun params ps r₂ _ hparams => ?_
  refine ensures_hierarchicalInstance.bind fun first us r₃ _ hfirst => ?_
  have hmore : Ensures file N r₃ (moreItems hierarchicalInstance) fun insts vs _ =>
      Following (Instance.Sentence (.ofNames N file)) insts vs :=
    .moreItems fun r' _ => ensures_hierarchicalInstance
  refine hmore.bind fun insts vs r₄ _ hinsts => ensures_endOfStatement.bind fun _ ws r₅ _ hend => ?_
  obtain ⟨semicolon, rfl, hsemicolon⟩ := hend
  refine .silent (.spanFrom _) fun span => .pure ?_
  rw [List.append_nil, ← List.append_assoc us vs]
  exact .mk hname hparams (.mk hfirst hinsts) hsemicolon

end Netlist.Parser
