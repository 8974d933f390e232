import Netlist.Proofs.Parser.Mirror.Expression

/-!
Statement parsers mirror themselves. An item of a parameter or port list is related before the form
of its list is known; keeping the items of one form then keeps corresponding items.
-/
namespace Netlist.Parser

open List (Forall₂)
open Syntax

variable {F : Frame}

theorem mirror_packedRange : Mirror F (Range.Alike F) packedRange packedRange := by
  refine Mirror.bind mirror_currentSpan fun start start' hstart => ?_
  refine Mirror.bindEq (mirror_take nofun) fun _ => ?_
  refine Mirror.bind mirror_expression fun msb msb' hmsb => ?_
  refine Mirror.bind (mirror_expect nofun) fun _ _ _ => ?_
  refine Mirror.bind mirror_expression fun lsb lsb' hlsb => ?_
  refine Mirror.bind (mirror_expect nofun) fun _ _ _ => ?_
  exact Mirror.bind (mirror_spanFrom hstart) fun s s' hs => .pure ⟨hmsb, hlsb, hs⟩

theorem mirror_signingHere :
    Mirror F (Option.Rel fun p p' => p.1 = p'.1 ∧ F.span p.2 p'.2) signingHere signingHere := by
  refine Mirror.bindEq mirror_current fun kind => ?_
  split
  · refine Mirror.bind mirror_currentSpan fun s s' hs => ?_
    refine Mirror.bindEq (mirror_take nofun) fun _ => ?_
    exact .pure (.some ⟨rfl, hs⟩)
  · exact .pure .none

theorem mirror_dataTypeOf (kind : BuiltinType) :
    Mirror F (DataType.Alike F) (dataTypeOf kind) (dataTypeOf kind) := by
  refine Mirror.bind mirror_currentSpan fun start start' hstart => ?_
  refine Mirror.bindEq (mirror_take nofun) fun _ => ?_
  refine Mirror.bind mirror_signingHere fun signing signing' hsigning => ?_
  refine Mirror.bind (mirror_itemsAt .leftBracket mirror_packedRange) fun rs rs' hrs => ?_
  exact Mirror.bind (mirror_spanFrom hstart) fun s s' hs => .pure ⟨rfl, hsigning, hrs, hs⟩

theorem mirror_paramValue : Mirror F (ParamValue.Alike F) paramValue paramValue := by
  refine Mirror.bindEq mirror_current fun kind => ?_
  split
  · exact Mirror.bind (mirror_dataTypeOf _) fun _ _ ht => .pure (.dataType ht)
  · exact Mirror.bind mirror_expression fun _ _ he => .pure (.expr he)

inductive ParamItem.Alike (F : Frame) : ParamItem → ParamItem → Prop
  | ordered {v v' : ParamValue} : v.Alike F v' → Alike F (.ordered v) (.ordered v')
  | named {p p' : NamedParam} : p.Alike F p' → Alike F (.named p) (.named p')

inductive PortItem.Alike (F : Frame) : PortItem → PortItem → Prop
  | ordered {p p' : OrderedPort} : p.Alike F p' → Alike F (.ordered p) (.ordered p')
  | named {p p' : NamedPort} : p.Alike F p' → Alike F (.named p) (.named p')

theorem mirror_paramItem : Mirror F (ParamItem.Alike F) paramItem paramItem := by
  refine Mirror.bind mirror_currentSpan fun start start' hstart => ?_
  refine Mirror.bindEq (.eat .dot nofun) fun dotted => ?_
  cases dotted with
  | true =>
    refine Mirror.bind mirror_expectIdentifier fun name name' hname => ?_
    refine Mirror.bind (mirror_expect nofun) fun _ _ _ => ?_
    refine Mirror.bind (mirror_unlessAt .rightParen mirror_paramValue) fun v v' hv => ?_
    refine Mirror.bind (mirror_expect nofun) fun _ _ _ => ?_
    exact Mirror.bind (mirror_spanFrom hstart) fun s s' hs => .pure (.named ⟨hname, hv, hs⟩)
  | false => exact Mirror.bind mirror_paramValue fun _ _ hv => .pure (.ordered hv)

section Form

variable {α β : Type} {Q : α → α → Prop} {R : β → β → Prop} {form : α → Option β}

theorem mirror_keepForm (hform : ∀ a a', Q a a' → Option.Rel R (form a) (form a'))
    (e : SyntaxError) (he : e ≠ .expectedExpression) {items items' : List (α × Span)}
    (hitems : Forall₂ (fun p p' => Q p.1 p'.1 ∧ F.span p.2 p'.2) items items') :
    Mirror F (Forall₂ R) (keepForm form e items) (keepForm form e items') := by
  induction hitems with
  | nil => exact .pure .nil
  | @cons p p' ps ps' hp hps ih =>
    have hkept := hform p.1 p'.1 hp.1
    unfold keepForm
    generalize form p.1 = kept, form p'.1 = kept' at hkept
    cases hkept with
    | some hb => exact Mirror.bind ih fun _ _ hbs => .pure (.cons hb hbs)
    | none => exact Mirror.bind (.reportAt he hp.2) fun _ _ _ => ih

end Form

theorem ParamItem.Alike.ordered? {i i' : ParamItem} (h : i.Alike F i') :
    Option.Rel (ParamValue.Alike F) i.ordered? i'.ordered? := by
  cases h with
  | ordered hv => exact .some hv
  | named hp => exact .none

theorem ParamItem.Alike.named? {i i' : ParamItem} (h : i.Alike F i') :
    Option.Rel (NamedParam.Alike F) i.named? i'.named? := by
  cases h with
  | ordered hv => exact .none
  | named hp => exact .some hp

theorem mirror_paramItemWithSpan :
    Mirror F (fun p p' => p.1.Alike F p'.1 ∧ F.span p.2 p'.2) paramItemWithSpan
      paramItemWithSpan := by
  refine Mirror.bind mirror_currentSpan fun s s' hs => ?_
  exact Mirror.bind mirror_paramItem fun i i' hi => .pure ⟨hi, hs⟩

theorem mirror_paramList : Mirror F (ParamList.Alike F) paramList paramList := by
  refine Mirror.bind mirror_paramItem fun first first' hfirst => ?_
  refine Mirror.bind (mirror_moreItems mirror_paramItemWithSpan) fun rest rest' hrest => ?_
  cases hfirst with
  | ordered hv =>
    have hkept := mirror_keepForm (fun _ _ h => h.ordered?) .mixedParams nofun hrest
    exact Mirror.bind hkept fun _ _ hvs => .pure (.ordered (.cons hv hvs))
  | named hp =>
    have hkept := mirror_keepForm (fun _ _ h => h.named?) .mixedParams nofun hrest
    exact Mirror.bind hkept fun _ _ hps => .pure (.named (.cons hp hps))

theorem mirror_paramClause : Mirror F (ParamClause.Alike F) paramClause paramClause := by
  refine Mirror.bind mirror_currentSpan fun start start' hstart => ?_
  refine Mirror.bind (mirror_expect nofun) fun _ _ _ => ?_
  refine Mirror.bind (mirror_expect nofun) fun _ _ _ => ?_
  refine Mirror.bind (mirror_unlessAt .rightParen mirror_paramList) fun list list' hlist => ?_
  refine Mirror.bind (mirror_expect nofun) fun _ _ _ => ?_
  exact Mirror.bind (mirror_spanFrom hstart) fun s s' hs => .pure ⟨hlist, hs⟩

theorem mirror_attributeSpec : Mirror F (AttributeSpec.Alike F) attributeSpec attributeSpec := by
  refine Mirror.bind mirror_currentSpan fun start start' hstart => ?_
  refine Mirror.bind mirror_expectIdentifier fun name name' hname => ?_
  refine Mirror.bind (mirror_after rfl mirror_expression) fun v v' hv => ?_
  exact Mirror.bind (mirror_spanFrom hstart) fun s s' hs => .pure ⟨hname, hv, hs⟩

theorem mirror_attributeGroup : Mirror F (Attribute.Alike F) attributeGroup attributeGroup := by
  refine Mirror.bind mirror_currentSpan fun start start' hstart => ?_
  refine Mirror.bindEq (mirror_take nofun) fun _ => ?_
  refine Mirror.bind mirror_attributeSpec fun first first' hfirst => ?_
  refine Mirror.bind (mirror_moreItems mirror_attributeSpec) fun more more' hmore => ?_
  refine Mirror.bind (mirror_expect nofun) fun _ _ _ => ?_
  exact Mirror.bind (mirror_spanFrom hstart) fun s s' hs => .pure ⟨.cons hfirst hmore, hs⟩

theorem mirror_portTarget : Mirror F (PortTarget.Alike F) portTarget portTarget := by
  refine Mirror.bindEq (.eat .star nofun) fun wild => ?_
  cases wild with
  | true => exact .pure .wildcard
  | false =>
    refine Mirror.bind mirror_expectIdentifier fun name name' hname => ?_
    refine Mirror.bindEq (.eat .leftParen nofun) fun opened => ?_
    cases opened with
    | true =>
      refine Mirror.bind (mirror_unlessAt .rightParen mirror_expression) fun e e' he => ?_
      exact Mirror.bind (mirror_expect nofun) fun _ _ _ => .pure (.port hname he)
    | false => exact .pure (.port hname .none)

private theorem join_alike {o o' : Option (Option Expr)}
    (h : Option.Rel (Option.Rel (Expr.Alike F)) o o') :
    Option.Rel (Expr.Alike F) o.join o'.join := by
  cases h with
  | none => exact .none
  | some h => exact h

theorem mirror_portItem : Mirror F (PortItem.Alike F) portItem portItem := by
  refine Mirror.bind mirror_currentSpan fun start start' hstart => ?_
  refine Mirror.bind .look fun c c' hc => ?_
  refine Mirror.bind (mirror_itemsAt .attrOpen mirror_attributeGroup) fun as as' has => ?_
  refine Mirror.bindEq (.eat .dot nofun) fun dotted => ?_
  cases dotted with
  | true =>
    refine Mirror.bind mirror_portTarget fun target target' htarget => ?_
    exact Mirror.bind (mirror_spanFrom hstart) fun s s' hs => .pure (.named ⟨has, htarget, hs⟩)
  | false =>
    have hexpr := mirror_unlessAt (F := F) .comma (mirror_unlessAt .rightParen mirror_expression)
    refine Mirror.bind hexpr fun e e' he => ?_
    rw [hc.consumed]
    refine Mirror.bind (mirror_spanSince hstart _) fun s s' hs => ?_
    exact .pure (.ordered ⟨has, join_alike he, hs⟩)

theorem PortItem.Alike.ordered? {i i' : PortItem} (h : i.Alike F i') :
    Option.Rel (OrderedPort.Alike F) i.ordered? i'.ordered? := by
  cases h with
  | ordered hp => exact .some hp
  | named hp => exact .none

theorem PortItem.Alike.named? {i i' : PortItem} (h : i.Alike F i') :
    Option.Rel (NamedPort.Alike F) i.named? i'.named? := by
  cases h with
  | ordered hp => exact .none
  | named hp => exact .some hp

private theorem withSpan_alike {items items' : List PortItem}
    (h : Forall₂ (PortItem.Alike F) items items') :
    Forall₂ (fun p p' => p.1.Alike F p'.1 ∧ F.span p.2 p'.2) (items.map PortItem.withSpan)
      (items'.map PortItem.withSpan) := by
  rw [List.forall₂_map_left_iff, List.forall₂_map_right_iff]
  apply h.imp
  intro i i' hi
  cases hi with
  | ordered hp => exact ⟨.ordered hp, hp.span⟩
  | named hp => exact ⟨.named hp, hp.span⟩

theorem mirror_portList : Mirror F (PortList.Alike F) portList portList := by
  refine Mirror.bindEq (mirror_sees .rightParen) fun closed => ?_
  cases closed with
  | true => exact .pure (.ordered .nil)
  | false =>
    refine Mirror.bind mirror_portItem fun first first' hfirst => ?_
    refine Mirror.bind (mirror_moreItems mirror_portItem) fun rest rest' hrest => ?_
    have hspans := withSpan_alike hrest
    cases hfirst with
    | ordered hp =>
      have hkept := mirror_keepForm (fun _ _ h => h.ordered?) .mixedPorts nofun hspans
      exact Mirror.bind hkept fun _ _ hps => .pure (.ordered (.cons hp hps))
    | named hp =>
      have hkept := mirror_keepForm (fun _ _ h => h.named?) .mixedPorts nofun hspans
      exact Mirror.bind hkept fun _ _ hps => .pure (.named (.cons hp hps))

theorem mirror_dimension : Mirror F (Dimension.Alike F) dimension dimension := by
  refine Mirror.bind mirror_currentSpan fun start start' hstart => ?_
  refine Mirror.bindEq (mirror_take nofun) fun _ => ?_
  refine Mirror.bind mirror_expression fun first first' hfirst => ?_
  refine Mirror.bindEq (.eat .colon nofun) fun ranged => ?_
  cases ranged with
  | true =>
    refine Mirror.bind mirror_expression fun lsb lsb' hlsb => ?_
    refine Mirror.bind (mirror_expect nofun) fun _ _ _ => ?_
    exact Mirror.bind (mirror_spanFrom hstart) fun s s' hs => .pure (.range ⟨hfirst, hlsb, hs⟩)
  | false =>
    refine Mirror.bind (mirror_expect nofun) fun _ _ _ => ?_
    exact Mirror.bind (mirror_spanFrom hstart) fun s s' hs => .pure (.size hfirst hs)

theorem mirror_instanceName : Mirror F (InstanceName.Alike F) instanceName instanceName := by
  refine Mirror.bind mirror_currentSpan fun start start' hstart => ?_
  refine Mirror.bind .look fun c c' hc => ?_
  refine Mirror.bind (mirror_nameOr fun _ => nofun) fun name name' hname => ?_
  refine Mirror.bind (mirror_itemsAt .leftBracket mirror_dimension) fun ds ds' hds => ?_
  rw [hc.consumed]
  exact Mirror.bind (mirror_spanSince hstart _) fun s s' hs => .pure ⟨hname, hds, hs⟩

theorem mirror_connections : Mirror F (PortList.Alike F) connections connections := by
  refine Mirror.bindEq (.eat .leftParen nofun) fun opened => ?_
  cases opened with
  | true =>
    refine Mirror.bind mirror_portList fun ports ports' hports => ?_
    exact Mirror.bind (mirror_expect nofun) fun _ _ _ => .pure hports
  | false =>
    refine Mirror.bindEq mirror_current fun kind => ?_
    exact Mirror.bind (mirror_report nofun) fun _ _ _ => .pure (.ordered .nil)

theorem mirror_hierarchicalInstance :
    Mirror F (Instance.Alike F) hierarchicalInstance hierarchicalInstance := by
  refine Mirror.bind mirror_currentSpan fun start start' hstart => ?_
  refine Mirror.bind mirror_instanceName fun name name' hname => ?_
  refine Mirror.bind mirror_connections fun ports ports' hports => ?_
  exact Mirror.bind (mirror_spanFrom hstart) fun s s' hs => .pure ⟨hname, hports, hs⟩

theorem mirror_endOfStatement : Mirror F Eq endOfStatement endOfStatement := by
  refine Mirror.bindEq (.eat .semicolon nofun) fun ended => ?_
  cases ended with
  | true => exact .pure rfl
  | false =>
    refine Mirror.bindEq mirror_current fun kind => ?_
    exact Mirror.bind (mirror_report nofun) fun _ _ _ => mirror_recoverToSemicolon

theorem mirror_instantiation : Mirror F (Instantiation.Alike F) instantiation instantiation := by
  refine Mirror.bind mirror_currentSpan fun start start' hstart => ?_
  refine Mirror.bind mirror_expectIdentifier fun module module' hmodule => ?_
  refine Mirror.bind (mirror_whenAt .hash mirror_paramClause) fun params params' hparams => ?_
  refine Mirror.bind mirror_hierarchicalInstance fun first first' hfirst => ?_
  refine Mirror.bind (mirror_moreItems mirror_hierarchicalInstance) fun more more' hmore => ?_
  refine Mirror.bindEq mirror_endOfStatement fun _ => ?_
  refine Mirror.bind (mirror_spanFrom hstart) fun s s' hs => ?_
  exact .pure ⟨hmodule, hparams, .cons hfirst hmore, List.cons_ne_nil _ _, hs⟩

end Netlist.Parser
