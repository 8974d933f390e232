import Netlist.Proofs.Parser.Accepts.Expression
import Netlist.Proofs.Syntax.Statement

/-!
The parsers of statements accept the grammar of statements. Which production comes next is told by
one token: none of those that begin or end the parts of a statement begins an expression.
-/
namespace Netlist.Parser

open List (Forall₂)
open Syntax

variable {W : Writing} {file : Nat} {ts rest : List Token}

/-- An expression before a token that can stand behind one. -/
theorem accepts_before {e : Expr} (h : e.Sentence W ts) {t : Token} (ht : t.kind ∈ followers) :
    Accepts file expression ts (t :: rest) fun N e' => e.Same (W.names N) (W.spans file) e' :=
  accepts_expression h.1 h.2 ht

theorem headKind_name {i : Identifier} (h : i.Written W ts) {kind : Kind}
    (hkind : kind.isIdentifier = false) : headKind (ts ++ rest) ≠ kind := by
  obtain ⟨t, ts, rfl, ht⟩ := h.exists_head
  rintro rfl
  rw [show headKind (t :: ts ++ rest) = t.kind from rfl, ht] at hkind
  cases hkind

theorem accepts_packedRange {range : Range} (h : range.Sentence W ts) :
    Accepts file packedRange ts rest fun N range' =>
      range.Same (W.names N) (W.spans file) range' := by
  cases h with
  | mk hopening hmsb hcolon hlsb hclosing =>
    refine .silent .currentSpan fun start => .take (by decide) hopening ?_
    refine (accepts_before hmsb (by rw [hcolon]; decide)).step fun msb' => ?_
    refine .expect (by decide) hcolon ?_
    refine (accepts_before hlsb (by rw [hclosing]; decide)).step fun lsb' => ?_
    refine .expect (by decide) hclosing (.silent (.spanFrom _) fun span => ?_)
    exact .pure fun N hlsb' hmsb' => ⟨hmsb', hlsb'⟩

theorem accepts_signingHere {signing : Option (Signing × Span)}
    (h : Optionally IsSigning signing ts) (hrest : ∀ s, headKind rest ≠ .signing s) :
    Accepts file signingHere ts rest fun _ signing' =>
      Option.Rel (fun p p' => p.1 = p'.1) signing signing' := by
  refine .current ?_
  cases h with
  | none =>
    split
    next s hkind => exact absurd hkind (hrest s)
    next => exact .pure fun _ => .none
  | some h =>
    cases h with
    | @mk s span t ht =>
      rw [show headKind ([t] ++ rest) = .signing s from ht]
      refine .silent .currentSpan fun span' => .take ⟨nofun, nofun⟩ ht ?_
      exact .pure fun _ => .some rfl

theorem headKind_strung {α : Type} {R : α → List Token → Prop} {as : List α} {kind : Kind}
    (h : Strung R as ts) (hhead : ∀ a ts' rest', R a ts' → headKind (ts' ++ rest') = kind) :
    headKind (ts ++ rest) = kind ∨ ts ++ rest = rest := by
  cases h with
  | nil => exact .inr rfl
  | cons ha _ =>
    rw [List.append_assoc]
    exact .inl (hhead _ _ _ ha)

theorem headKind_range {range : Range} {ts' rest' : List Token} (h : range.Sentence W ts') :
    headKind (ts' ++ rest') = .leftBracket := by
  cases h with
  | mk hopening _ _ _ _ => exact hopening

theorem accepts_dataTypeOf {type : DataType} (h : type.Sentence W ts)
    (hrest : headKind rest = .comma ∨ headKind rest = .rightParen) :
    Accepts file (dataTypeOf type.kind) ts rest fun N type' =>
      type.Same (W.names N) (W.spans file) type' := by
  cases h with
  | @mk t ss ps ht hsigning hpacked =>
    have hnext : ∀ s, headKind (ps ++ rest) ≠ .signing s := by
      intro s
      rcases headKind_strung hpacked fun _ _ _ => headKind_range with h | h
      · rw [h]
        nofun
      · rw [h]
        rcases hrest with h | h <;> rw [h] <;> nofun
    have hbracket : headKind rest ≠ .leftBracket := by
      rcases hrest with h | h <;> rw [h] <;> decide
    have hitems : Accepts file (itemsAt .leftBracket packedRange) ps rest fun N packed' =>
        Forall₂ (Range.Same (W.names N) (W.spans file)) type.packed packed' :=
      .itemsAt hpacked (by decide) hbracket (fun _ _ _ => headKind_range)
        fun _ _ _ _ h _ _ => accepts_packedRange h
    refine .silent .currentSpan fun start => .take ⟨nofun, nofun⟩ ht ?_
    refine (accepts_signingHere hsigning hnext).step fun signing' => ?_
    refine hitems.last fun packed' => .silent (.spanFrom _) fun span => ?_
    exact .pure fun N hpacked' hsigning' => ⟨rfl, hsigning', hpacked'⟩

theorem headKind_paramValue {value : ParamValue} (h : value.Sentence W ts) {kind : Kind}
    (hkind : startsExpression kind = false) (htype : ∀ t, kind ≠ .dataType t) :
    headKind (ts ++ rest) ≠ kind := by
  cases h with
  | expr he => exact headKind_ne he.2 hkind
  | dataType ht =>
    cases ht with
    | mk ht _ _ => exact fun hk => htype _ (hk.symm.trans ht)

theorem accepts_paramValue {value : ParamValue} (h : value.Sentence W ts)
    (hrest : headKind rest = .comma ∨ headKind rest = .rightParen) :
    Accepts file paramValue ts rest fun N value' =>
      value.Same (W.names N) (W.spans file) value' := by
  refine .current ?_
  cases h with
  | expr he =>
    split
    next kind hkind => exact absurd hkind (headKind_ne he.2 rfl)
    next =>
      have hfollow : headKind rest ∈ followers := by
        rcases hrest with h | h <;> rw [h] <;> decide
      exact .map ((accepts_expression he.1 he.2 hfollow).mono fun N e' h => .expr h)
  | @dataType type ts hsentence =>
    have hkind : headKind (ts ++ rest) = .dataType type.kind := by
      cases hsentence with
      | mk ht _ _ => exact ht
    rw [hkind]
    exact .map ((accepts_dataTypeOf hsentence hrest).mono fun N type' h => .dataType h)

theorem accepts_orderedParam {value : ParamValue} (h : value.Sentence W ts)
    (hrest : headKind rest = .comma ∨ headKind rest = .rightParen) :
    Accepts file paramItem ts rest fun N item => ∃ value', item = .ordered value' ∧
      value.Same (W.names N) (W.spans file) value' := by
  refine .silent .currentSpan fun start => .eatOther (headKind_paramValue h rfl nofun) ?_
  exact .map ((accepts_paramValue h hrest).mono fun N value' h => ⟨value', rfl, h⟩)

theorem accepts_namedParam {param : NamedParam} (h : param.Sentence W ts) :
    Accepts file paramItem ts rest fun N item => ∃ param', item = .named param' ∧
      param.Same (W.names N) (W.spans file) param' := by
  cases h with
  | @mk dot opening closing is vs hdot hname hopening hvalue hclosing =>
    have hnext : headKind ([closing] ++ rest) = .rightParen := hclosing
    have hparen : Accepts file (unlessAt .rightParen paramValue) vs ([closing] ++ rest)
        fun N value' =>
          Option.Rel (ParamValue.Same (W.names N) (W.spans file)) param.value value' :=
      .unlessAt_optionally hvalue hnext (fun _ h => headKind_paramValue h rfl nofun)
        fun _ h => accepts_paramValue h (.inr hnext)
    refine .silent .currentSpan fun start => .eat (by decide) hdot ?_
    refine (accepts_nameOr hname).step fun name' => .expect (by decide) hopening ?_
    refine hparen.step fun value' => .expect (by decide) hclosing ?_
    refine .silent (.spanFrom _) fun span => .pure fun N hvalue' hname' => ?_
    exact ⟨_, rfl, hname', hvalue'⟩

section Lists

variable {α β γ : Type} {form : α → Option β} {R : γ → List Token → Prop}
  {S : Names → γ → β → Prop} {as : List γ}

/-- Items behind commas in a list that a token of the given kind closes. -/
theorem accepts_listed {item : ParserM α} {P : Names → γ → α → Prop} {close : Kind}
    (h : Following R as ts) (hrest : headKind rest = close) (hclose : close ≠ .comma)
    (hitem : ∀ a ts' rest', R a ts' → headKind rest' = .comma ∨ headKind rest' = close →
      Accepts file item ts' rest' fun N b => P N a b) :
    Accepts file (moreItems item) ts rest fun N bs => Forall₂ (P N) as bs := by
  refine .moreItems h (hrest ▸ hclose) fun a _ ts' rest' hts' _ hnext => ?_
  refine hitem a ts' rest' hts' ?_
  rcases hnext with hnext | rfl
  · exact .inl hnext
  · exact .inr hrest

/-- The token behind the first item of such a list. -/
theorem headKind_listed {close : Kind} (h : Following R as ts) (hrest : headKind rest = close) :
    headKind (ts ++ rest) = .comma ∨ headKind (ts ++ rest) = close := by
  cases h with
  | nil => exact .inr hrest
  | cons hcomma _ _ => exact .inl hcomma

/-- An item that was read has the form and stands for what is written. -/
def IsKept (form : α → Option β) (S : γ → β → Prop) (a : γ) (item : α × Span) : Prop :=
  ∃ b, form item.1 = some b ∧ S a b

/-- Items that all have the form are all kept. -/
theorem accepts_keepForm (S : Names → γ → β → Prop) {M : Names} {e : SyntaxError}
    {items : List (α × Span)} (h : Forall₂ (IsKept form (S M)) as items) :
    Accepts file (keepForm form e items) [] rest fun N bs =>
      Forall₂ (IsKept form (S N)) as items → Forall₂ (S N) as bs := by
  induction h with
  | nil => exact .pure fun _ _ => .nil
  | cons hitem _ ih =>
    obtain ⟨b, hb, -⟩ := hitem
    unfold keepForm
    rw [hb]
    refine ih.last fun bs => .pure fun N hbs hall => ?_
    cases hall with
    | cons hitem hall =>
      obtain ⟨b', hb', hS⟩ := hitem
      rw [hb] at hb'
      cases hb'
      exact .cons hS (hbs hall)

/-- The items of a list after the first: they are read, given their spans, and then kept. -/
theorem accepts_kept {δ ι : Type} {item : ParserM ι} {spanned : List ι → List (α × Span)}
    {K : Names → γ → ι → Prop} {e : SyntaxError} {f : List β → ParserM δ}
    {Q : Names → δ → Prop} (S : Names → γ → β → Prop) (h : Following R as ts)
    (hrest : headKind rest = .rightParen)
    (hitem : ∀ a ts' rest', R a ts' → headKind rest' = .comma ∨ headKind rest' = .rightParen →
      Accepts file item ts' rest' fun N i => K N a i)
    (hspanned : ∀ N items, Forall₂ (K N) as items →
      Forall₂ (IsKept form (S N)) as (spanned items))
    (hf : ∀ bs, Accepts file (f bs) [] rest fun N d => Forall₂ (S N) as bs → Q N d) :
    Accepts file (moreItems item >>= fun items => keepForm form e (spanned items) >>= f) ts rest
      Q := by
  refine (accepts_listed h hrest (by decide) hitem).bindLast fun items M hitems => ?_
  refine (accepts_keepForm S (hspanned M items hitems)).last fun bs => ?_
  exact (hf bs).mono fun N d hd hbs hitems => hd (hbs (hspanned N items hitems))

end Lists

theorem accepts_paramList {list : ParamList} (h : list.Sentence W ts)
    (hrest : headKind rest = .rightParen) :
    Accepts file paramList ts rest fun N list' =>
      list.Same (W.names N) (W.spans file) list' := by
  cases h with
  | ordered h =>
    cases h with
    | mk hvalue hvalues =>
      refine (accepts_orderedParam hvalue (headKind_listed hvalues hrest)).bind fun first M hM => ?_
      obtain ⟨value', rfl, -⟩ := hM
      refine accepts_kept (fun N => ParamValue.Same (W.names N) (W.spans file)) hvalues hrest
        (fun v ts' rest' hv hnext => .silent .currentSpan fun span => .map ?_)
        (fun N items h => h) fun kept => .pure fun N hkept hfirst => ?_
      · refine (accepts_orderedParam hv hnext).mono fun N item hitem => ?_
        obtain ⟨v', rfl, hsame⟩ := hitem
        exact ⟨v', rfl, hsame⟩
      · obtain ⟨_, heq, hsame⟩ := hfirst
        cases heq
        exact .ordered (.cons hsame hkept)
  | named h =>
    cases h with
    | mk hparam hparams =>
      refine (accepts_namedParam hparam).bind fun first M hM => ?_
      obtain ⟨param', rfl, -⟩ := hM
      refine accepts_kept (fun N => NamedParam.Same (W.names N) (W.spans file)) hparams hrest
        (fun p ts' rest' hp _ => .silent .currentSpan fun span => .map ?_)
        (fun N items h => h) fun kept => .pure fun N hkept hfirst => ?_
      · refine (accepts_namedParam hp).mono fun N item hitem => ?_
        obtain ⟨p', rfl, hsame⟩ := hitem
        exact ⟨p', rfl, hsame⟩
      · obtain ⟨_, heq, hsame⟩ := hfirst
        cases heq
        exact .named (.cons hsame hkept)

theorem headKind_paramList {list : ParamList} (h : list.Sentence W ts) :
    headKind (ts ++ rest) ≠ .rightParen := by
  cases h with
  | ordered h =>
    cases h with
    | mk hvalue _ =>
      rw [List.append_assoc]
      exact headKind_paramValue hvalue rfl nofun
  | named h =>
    cases h with
    | mk hparam _ =>
      cases hparam with
      | mk hdot _ _ _ _ =>
        intro hkind
        cases hdot.symm.trans hkind

theorem accepts_paramClause {clause : ParamClause} (h : clause.Sentence W ts) :
    Accepts file paramClause ts rest fun N clause' =>
      clause.Same (W.names N) (W.spans file) clause' := by
  cases h with
  | @mk hash opening closing ts hhash hopening hlist hclosing =>
    have hnext : headKind ([closing] ++ rest) = .rightParen := hclosing
    have hparen : Accepts file (unlessAt .rightParen paramList) ts ([closing] ++ rest) fun N list' =>
        Option.Rel (ParamList.Same (W.names N) (W.spans file)) clause.list list' :=
      .unlessAt_optionally hlist hnext (fun _ h => headKind_paramList h)
        fun _ h => accepts_paramList h hnext
    refine .silent .currentSpan fun start => .expect (by decide) hhash ?_
    refine .expect (by decide) hopening (hparen.step fun list' => .expect (by decide) hclosing ?_)
    exact .silent (.spanFrom _) fun span => .pure fun N h => h

theorem accepts_attributeSpec {spec : AttributeSpec} (h : spec.Sentence W ts)
    (hrest : headKind rest = .comma ∨ headKind rest = .attrClose) :
    Accepts file attributeSpec ts rest fun N spec' =>
      spec.Same (W.names N) (W.spans file) spec' := by
  have hfollow : headKind rest ∈ followers := by
    rcases hrest with h | h <;> rw [h] <;> decide
  refine .silent .currentSpan fun start => ?_
  cases h with
  | bare hname hvalue =>
    refine (accepts_nameOr hname).last fun name' => ?_
    have hnone : Accepts file (after .equals expression) [] rest fun _ value' => value' = none :=
      .eatOther (by rcases hrest with h | h <;> rw [List.nil_append, h] <;> decide)
        (.pure fun _ => rfl)
    refine hnone.last fun value' => .silent (.spanFrom _) fun span => .pure fun N hv hname' => ?_
    refine ⟨hname', ?_⟩
    rw [hvalue, hv]
    exact .none
  | @valued e equals is ts hname hequals hvalue he =>
    refine (accepts_nameOr hname).step fun name' => ?_
    have hsome : Accepts file (after .equals expression) (equals :: ts) rest fun N value' =>
        ∃ e', value' = some e' ∧ e.Same (W.names N) (W.spans file) e' :=
      .eat (by decide) hequals
        (.map ((accepts_expression he.1 he.2 hfollow).mono fun N e' he' => ⟨e', rfl, he'⟩))
    refine hsome.last fun value' => .silent (.spanFrom _) fun span => .pure fun N hv hname' => ?_
    obtain ⟨e', rfl, he'⟩ := hv
    refine ⟨hname', ?_⟩
    rw [hvalue]
    exact .some he'

theorem accepts_attributeGroup {attr : Attribute} (h : attr.Sentence W ts) :
    Accepts file attributeGroup ts rest fun N attr' =>
      attr.Same (W.names N) (W.spans file) attr' := by
  obtain ⟨specs, span⟩ := attr
  cases h with
  | @mk opening closing ts hopening hspecs hclosing =>
    have hnext : headKind ([closing] ++ rest) = .attrClose := hclosing
    refine .silent .currentSpan fun start => .take (by decide) hopening ?_
    cases hspecs with
    | @mk spec specs us vs hspec hspecs =>
      have hfirst := headKind_listed hspecs hnext
      rw [← List.append_assoc] at hfirst
      refine .cast ?_ (List.append_assoc us vs [closing])
      refine (accepts_attributeSpec hspec hfirst).step fun spec' => ?_
      refine (accepts_listed hspecs hnext (by decide) fun _ _ _ => accepts_attributeSpec).step
        fun specs' => .expect (by decide) hclosing ?_
      exact .silent (.spanFrom _) fun span => .pure fun N hspecs' hspec' => .cons hspec' hspecs'

theorem headKind_attribute {attr : Attribute} {ts' rest' : List Token} (h : attr.Sentence W ts') :
    headKind (ts' ++ rest') = .attrOpen := by
  cases h with
  | mk hopening _ _ => exact hopening

theorem accepts_attributes {attributes : List Attribute}
    (h : Strung (Attribute.Sentence W) attributes ts) (hrest : headKind rest ≠ .attrOpen) :
    Accepts file (itemsAt .attrOpen attributeGroup) ts rest fun N attributes' =>
      Forall₂ (Attribute.Same (W.names N) (W.spans file)) attributes attributes' :=
  .itemsAt h (by decide) hrest (fun _ _ _ => headKind_attribute)
    fun _ _ _ _ h _ _ => accepts_attributeGroup h

theorem accepts_portTarget {target : PortTarget} (h : target.Sentence W ts)
    (hrest : headKind rest = .comma ∨ headKind rest = .rightParen) :
    Accepts file portTarget ts rest fun N target' =>
      target.Same (W.names N) (W.spans file) target' := by
  cases h with
  | wildcard ht => exact .eat (by decide) ht (.pure fun _ => .wildcard)
  | bare hname =>
    refine .eatOther (headKind_name hname rfl) ((accepts_nameOr hname).last fun name' => ?_)
    refine .eatOther ?_ (.pure fun N hname' => .port hname' .none)
    rcases hrest with h | h <;> rw [List.nil_append, h] <;> decide
  | @connected name actual opening closing is es hname hopening hactual hclosing =>
    have hnext : headKind ([closing] ++ rest) = .rightParen := hclosing
    have hparen : Accepts file (unlessAt .rightParen expression) es ([closing] ++ rest)
        fun N actual' => Option.Rel (Expr.Same (W.names N) (W.spans file)) actual actual' :=
      .unlessAt_optionally hactual hnext (fun _ h => headKind_ne h.2 rfl)
        fun _ h => accepts_before h (by rw [hclosing]; decide)
    refine .eatOther (by rw [List.append_assoc]; exact headKind_name hname rfl) ?_
    refine (accepts_nameOr hname).step fun name' => .eat (by decide) hopening ?_
    refine hparen.step fun actual' => .expect (by decide) hclosing ?_
    exact .pure fun N hactual' hname' => .port hname' hactual'

theorem accepts_namedPort {port : NamedPort} (h : port.Sentence W ts)
    (hrest : headKind rest = .comma ∨ headKind rest = .rightParen) :
    Accepts file portItem ts rest fun N item => ∃ port', item = .named port' ∧
      port.Same (W.names N) (W.spans file) port' := by
  cases h with
  | @mk dot as ts hattributes hdot htarget =>
    have hnext : headKind (dot :: ts ++ rest) ≠ .attrOpen := by
      rw [show headKind (dot :: ts ++ rest) = .dot from hdot]
      decide
    refine .silent .currentSpan fun start => .silent .look fun c => ?_
    refine (accepts_attributes hattributes hnext).step fun attributes' => .eat (by decide) hdot ?_
    refine (accepts_portTarget htarget hrest).last fun target' => .silent (.spanFrom _) fun span => ?_
    exact .pure fun N htarget' hattributes' => ⟨_, rfl, hattributes', htarget'⟩

/-- What an ordered port holds, if it is not blank. -/
theorem accepts_blank {expr : Option Expr} (h : Optionally (Expr.Sentence W) expr ts)
    (hrest : headKind rest = .comma ∨ headKind rest = .rightParen) :
    Accepts file (unlessAt .comma (unlessAt .rightParen expression)) ts rest fun N found =>
      Option.Rel (Expr.Same (W.names N) (W.spans file)) expr found.join := by
  cases h with
  | none =>
    rcases hrest with hcomma | hparen
    · exact (Accepts.unlessAt_none hcomma).mono fun N found hfound => hfound ▸ .none
    · have hcomma : headKind ([] ++ rest) ≠ .comma := by rw [List.nil_append, hparen]; decide
      refine (Accepts.unlessAt hcomma (.unlessAt_none hparen)).mono fun N found hfound => ?_
      obtain ⟨_, rfl, rfl⟩ := hfound
      exact .none
  | some he =>
    have hfollow : headKind rest ∈ followers := by
      rcases hrest with h | h <;> rw [h] <;> decide
    have hexpr : Accepts file expression ts rest _ := accepts_expression he.1 he.2 hfollow
    refine (Accepts.unlessAt (headKind_ne he.2 rfl)
      (.unlessAt (headKind_ne he.2 rfl) hexpr)).mono fun N found hfound => ?_
    obtain ⟨_, rfl, e', rfl, hsame⟩ := hfound
    exact .some hsame

theorem accepts_orderedPort {port : OrderedPort} (h : port.Sentence W ts)
    (hrest : headKind rest = .comma ∨ headKind rest = .rightParen) :
    Accepts file portItem ts rest fun N item => ∃ port', item = .ordered port' ∧
      port.Same (W.names N) (W.spans file) port' := by
  obtain ⟨attributes, expr, span⟩ := port
  cases h with
  | @mk as es hattributes hexpr =>
    have hhead : ∀ kind, startsExpression kind = false → kind ∉ [Kind.comma, .rightParen] →
        headKind (es ++ rest) ≠ kind := by
      intro kind hkind hother
      cases hexpr with
      | none =>
        rintro rfl
        rcases hrest with h | h <;> rw [List.nil_append, h] at hother <;> exact hother (by decide)
      | some he => exact headKind_ne he.2 hkind
    refine .silent .currentSpan fun start => .silent .look fun c => ?_
    refine (accepts_attributes hattributes (hhead _ rfl (by decide))).step fun attributes' => ?_
    refine .eatOther (hhead _ rfl (by decide)) ((accepts_blank hexpr hrest).last fun found => ?_)
    refine .silent (.spanSince _ _) fun span => .pure fun N hfound hattributes' => ?_
    exact ⟨_, rfl, hattributes', hfound⟩

theorem headKind_orderedPort {port : OrderedPort} (h : port.Sentence W ts) (hne : ts ≠ []) :
    headKind (ts ++ rest) ≠ .rightParen := by
  obtain ⟨attributes, expr, span⟩ := port
  cases h with
  | mk hattributes hexpr =>
    rw [List.append_assoc]
    cases hattributes with
    | nil =>
      cases hexpr with
      | none => exact absurd rfl hne
      | some he => exact headKind_ne he.2 rfl
    | cons hattr _ =>
      rw [List.append_assoc, headKind_attribute hattr]
      decide

theorem headKind_namedPort {port : NamedPort} (h : port.Sentence W ts) :
    headKind (ts ++ rest) ≠ .rightParen := by
  cases h with
  | mk hattributes hdot _ =>
    rw [List.append_assoc]
    rcases headKind_strung hattributes fun _ _ _ => headKind_attribute with h | h
    · rw [h]
      decide
    · rw [h]
      exact fun hkind => by cases hdot.symm.trans hkind

theorem accepts_portList {list : PortList} (h : list.Sentence W ts)
    (hrest : headKind rest = .rightParen) :
    Accepts file portList ts rest fun N list' =>
      list.Same (W.names N) (W.spans file) list' := by
  cases h with
  | empty => exact .seesKind hrest (.pure fun _ => .ordered .nil)
  | ordered h hne =>
    cases h with
    | @mk port ports us vs hport hports =>
      have hhead : headKind (us ++ vs ++ rest) ≠ .rightParen := by
        by_cases hus : us = []
        · subst hus
          cases hports with
          | nil => exact absurd rfl hne
          | cons hcomma _ _ => exact fun hkind => by cases hcomma.symm.trans hkind
        · rw [List.append_assoc]
          exact headKind_orderedPort hport hus
      refine .seesOther hhead ?_
      refine (accepts_orderedPort hport (headKind_listed hports hrest)).bind fun first M hM => ?_
      obtain ⟨port', rfl, -⟩ := hM
      refine accepts_kept (fun N => OrderedPort.Same (W.names N) (W.spans file)) hports hrest
        (fun p ts' rest' hp hnext => accepts_orderedPort hp hnext) (fun N items h => ?_)
        fun kept => .pure fun N hkept hfirst => ?_
      · rw [List.forall₂_map_right_iff]
        refine h.imp fun p item hitem => ?_
        obtain ⟨p', rfl, hsame⟩ := hitem
        exact ⟨p', rfl, hsame⟩
      · obtain ⟨_, heq, hsame⟩ := hfirst
        cases heq
        exact .ordered (.cons hsame hkept)
  | named h =>
    cases h with
    | @mk port ports us vs hport hports =>
      have hhead : headKind (us ++ vs ++ rest) ≠ .rightParen := by
        rw [List.append_assoc]
        exact headKind_namedPort hport
      refine .seesOther hhead ?_
      refine (accepts_namedPort hport (headKind_listed hports hrest)).bind fun first M hM => ?_
      obtain ⟨port', rfl, -⟩ := hM
      refine accepts_kept (fun N => NamedPort.Same (W.names N) (W.spans file)) hports hrest
        (fun p ts' rest' hp hnext => accepts_namedPort hp hnext) (fun N items h => ?_)
        fun kept => .pure fun N hkept hfirst => ?_
      · rw [List.forall₂_map_right_iff]
        refine h.imp fun p item hitem => ?_
        obtain ⟨p', rfl, hsame⟩ := hitem
        exact ⟨p', rfl, hsame⟩
      · obtain ⟨_, heq, hsame⟩ := hfirst
        cases heq
        exact .named (.cons hsame hkept)

theorem accepts_dimension {dim : Dimension} (h : dim.Sentence W ts) :
    Accepts file dimension ts rest fun N dim' => dim.Same (W.names N) (W.spans file) dim' := by
  cases h with
  | range h =>
    cases h with
    | mk hopening hmsb hcolon hlsb hclosing =>
      refine .silent .currentSpan fun start => .take (by decide) hopening ?_
      refine (accepts_before hmsb (by rw [hcolon]; decide)).step fun msb' => ?_
      refine .eat (by decide) hcolon ?_
      refine (accepts_before hlsb (by rw [hclosing]; decide)).step fun lsb' => ?_
      refine .expect (by decide) hclosing (.silent (.spanFrom _) fun span => ?_)
      exact .pure fun N hlsb' hmsb' => .range ⟨hmsb', hlsb'⟩
  | @size e span opening closing ts hopening he hclosing =>
    have hcolon : headKind ([closing] ++ rest) ≠ .colon := by
      rw [show headKind ([closing] ++ rest) = .rightBracket from hclosing]
      decide
    refine .silent .currentSpan fun start => .take (by decide) hopening ?_
    refine (accepts_before he (by rw [hclosing]; decide)).step fun e' => .eatOther hcolon ?_
    refine .expect (by decide) hclosing (.silent (.spanFrom _) fun span => ?_)
    exact .pure fun N he' => .size he'

theorem headKind_dimension {dim : Dimension} {ts' rest' : List Token} (h : dim.Sentence W ts') :
    headKind (ts' ++ rest') = .leftBracket := by
  cases h with
  | range h => exact headKind_range h
  | size hopening _ _ => exact hopening

theorem accepts_hierarchicalInstance {inst : Instance} (h : inst.Sentence W ts) :
    Accepts file hierarchicalInstance ts rest fun N inst' =>
      inst.Same (W.names N) (W.spans file) inst' := by
  cases h with
  | @mk opening closing ns ps hname hopening hports hclosing =>
    have hnext : headKind ([closing] ++ rest) = .rightParen := hclosing
    have hbracket : headKind (opening :: (ps ++ [closing]) ++ rest) ≠ .leftBracket := by
      rw [show headKind (opening :: (ps ++ [closing]) ++ rest) = .leftParen from hopening]
      decide
    have hname' : Accepts file instanceName ns (opening :: (ps ++ [closing]) ++ rest) fun N name' =>
        inst.name.Same (W.names N) (W.spans file) name' := by
      cases hname with
      | mk hname hdims =>
        have hitems : Accepts file (itemsAt .leftBracket dimension) _ _ fun N dims' =>
            Forall₂ (Dimension.Same (W.names N) (W.spans file)) inst.name.dimensions dims' :=
          .itemsAt hdims (by decide) hbracket (fun _ _ _ => headKind_dimension)
            fun _ _ _ _ h _ _ => accepts_dimension h
        refine .silent .currentSpan fun start => .silent .look fun c => ?_
        refine (accepts_nameOr hname).step fun name' => hitems.last fun dims' => ?_
        exact .silent (.spanSince _ _) fun span => .pure fun N hdims' hname' => ⟨hname', hdims'⟩
    have hports' : Accepts file connections (opening :: (ps ++ [closing])) rest fun N ports' =>
        inst.connections.Same (W.names N) (W.spans file) ports' := by
      refine .eat (by decide) hopening ((accepts_portList hports hnext).step fun ports' => ?_)
      exact .expect (by decide) hclosing (.pure fun N hports' => hports')
    refine .silent .currentSpan fun start => hname'.step fun name' => ?_
    refine hports'.last fun ports' => .silent (.spanFrom _) fun span => ?_
    exact .pure fun N hports' hname' => ⟨hname', hports'⟩

/-- A statement is accepted, whatever stands behind it. -/
theorem accepts_instantiation {stmt : Instantiation} (h : stmt.Sentence W ts) :
    Accepts file instantiation ts rest fun N stmt' =>
      stmt.Same (W.names N) (W.spans file) stmt' := by
  obtain ⟨module, params, instances, span⟩ := stmt
  cases h with
  | @mk semicolon is ps ts hmodule hparams hinstances hsemicolon =>
    have hnext : headKind ([semicolon] ++ rest) = .semicolon := hsemicolon
    cases hinstances with
    | @mk inst insts us vs hinst hinsts =>
      have hhash : headKind (us ++ vs ++ [semicolon] ++ rest) ≠ .hash := by
        cases hinst with
        | mk hname _ _ _ =>
          cases hname with
          | mk hname _ =>
            simp only [List.append_assoc]
            exact headKind_name hname rfl
      have hparams' : Accepts file (whenAt .hash paramClause) ps (us ++ vs ++ [semicolon] ++ rest)
          fun N params' =>
            Option.Rel (ParamClause.Same (W.names N) (W.spans file)) params params' :=
        .whenAt_optionally hparams hhash
          (fun _ h => by cases h with | mk hhash _ _ _ => exact hhash)
          fun _ h => accepts_paramClause h
      refine .silent .currentSpan fun start => (accepts_nameOr hmodule).step fun module' => ?_
      refine hparams'.step fun params' => ?_
      rw [List.append_assoc]
      refine (accepts_hierarchicalInstance hinst).step fun inst' => ?_
      refine (accepts_listed hinsts hnext (by decide)
        fun _ _ _ h _ => accepts_hierarchicalInstance h).step fun insts' => ?_
      have hend : Accepts file endOfStatement [semicolon] rest fun _ _ => True :=
        .eat (by decide) hsemicolon (.pure fun _ => trivial)
      refine hend.last fun _ => .silent (.spanFrom _) fun span => ?_
      exact .pure fun N _ hinsts' hinst' hparams' hmodule' =>
        ⟨hmodule', hparams', .cons hinst' hinsts'⟩

end Netlist.Parser
