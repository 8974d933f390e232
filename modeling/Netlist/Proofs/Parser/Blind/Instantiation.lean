import Netlist.Proofs.Parser.Blind.Expression

/-!
The parsers of instantiation statements do not see behind the tokens they need.
-/
namespace Netlist.Parser

open Syntax

variable {K : Fork} {ts : List Token}

theorem blind_packedRange : Blind K ts packedRange packedRange := by
  refine blind_currentSpan.bind fun start _ _ => ?_
  refine blind_take.bind fun _ _ _ => ?_
  refine blind_expression.bind fun msb _ _ => ?_
  refine (blind_expect (by decide)).bind fun _ _ _ => ?_
  refine blind_expression.bind fun lsb _ _ => ?_
  refine (blind_expect (by decide)).bind fun _ _ _ => ?_
  exact (blind_spanFrom start).bind fun _ _ _ => .pure _

theorem eats_packedRange (r : List Token) (h : headKind r = .leftBracket) : Eats r packedRange :=
  .kept Silent.currentSpan.keeps fun _ => (Eats.take h (by decide)).bind

theorem blind_signingHere : Blind K ts signingHere signingHere := by
  apply Blind.current
  split
  · exact blind_currentSpan.bind fun _ _ _ => blind_take.bind fun _ _ _ => .pure _
  · exact .pure _

theorem blind_dataTypeOf (kind : BuiltinType) :
    Blind K ts (dataTypeOf kind) (dataTypeOf kind) := by
  refine blind_currentSpan.bind fun start _ _ => ?_
  refine blind_take.bind fun _ _ _ => ?_
  refine blind_signingHere.bind fun signing _ _ => ?_
  refine (blind_itemsAt eats_packedRange fun _ => blind_packedRange).bind fun packed _ _ => ?_
  exact (blind_spanFrom start).bind fun _ _ _ => .pure _

theorem blind_paramValue : Blind K ts paramValue paramValue := by
  apply Blind.current
  split
  · exact (blind_dataTypeOf _).bind fun _ _ _ => .pure _
  · exact blind_expression.bind fun _ _ _ => .pure _

theorem blind_paramItem : Blind K ts paramItem paramItem := by
  refine blind_currentSpan.bind fun start _ _ => ?_
  refine Blind.eat (by decide) (fun _ _ _ _ => ?_) fun _ => ?_
  · refine blind_expectIdentifier.bind fun name _ _ => ?_
    refine (blind_expect (by decide)).bind fun _ _ _ => ?_
    refine (blind_unlessAt blind_paramValue).bind fun value _ _ => ?_
    refine (blind_expect (by decide)).bind fun _ _ _ => ?_
    exact (blind_spanFrom start).bind fun _ _ _ => .pure _
  · exact blind_paramValue.bind fun _ _ _ => .pure _

theorem blind_keepForm {α β : Type} (form : α → Option β) (e : SyntaxError)
    (items : List (α × Span)) : Blind K ts (keepForm form e items) (keepForm form e items) := by
  induction items generalizing ts with
  | nil => exact .pure []
  | cons item items ih =>
    unfold keepForm
    split
    · exact ih.bind fun _ _ _ => .pure _
    · exact (Blind.reportAt _ _).bind fun _ _ _ => ih

theorem blind_paramList : Blind K ts paramList paramList := by
  have hitem {us : List Token} : Blind K us paramItemWithSpan paramItemWithSpan :=
    blind_currentSpan.bind fun _ _ _ => blind_paramItem.bind fun _ _ _ => .pure _
  refine blind_paramItem.bind fun first _ _ => ?_
  refine (blind_moreItems fun _ _ => hitem).bind fun rest _ _ => ?_
  split
  · exact (blind_keepForm _ _ rest).bind fun _ _ _ => .pure _
  · exact (blind_keepForm _ _ rest).bind fun _ _ _ => .pure _

theorem blind_paramClause : Blind K ts paramClause paramClause := by
  refine blind_currentSpan.bind fun start _ _ => ?_
  refine (blind_expect (by decide)).bind fun _ _ _ => ?_
  refine (blind_expect (by decide)).bind fun _ _ _ => ?_
  refine (blind_unlessAt blind_paramList).bind fun list _ _ => ?_
  refine (blind_expect (by decide)).bind fun _ _ _ => ?_
  exact (blind_spanFrom start).bind fun _ _ _ => .pure _

theorem blind_attributeSpec : Blind K ts attributeSpec attributeSpec := by
  refine blind_currentSpan.bind fun start _ _ => ?_
  refine blind_expectIdentifier.bind fun name _ _ => ?_
  refine (blind_after (by decide) fun _ => blind_expression).bind fun value _ _ => ?_
  exact (blind_spanFrom start).bind fun _ _ _ => .pure _

theorem blind_attributeGroup : Blind K ts attributeGroup attributeGroup := by
  refine blind_currentSpan.bind fun start _ _ => ?_
  refine blind_take.bind fun _ _ _ => ?_
  refine blind_attributeSpec.bind fun first _ _ => ?_
  refine (blind_moreItems fun _ _ => blind_attributeSpec).bind fun more _ _ => ?_
  refine (blind_expect (by decide)).bind fun _ _ _ => ?_
  exact (blind_spanFrom start).bind fun _ _ _ => .pure _

theorem eats_attributeGroup (r : List Token) (h : headKind r = .attrOpen) :
    Eats r attributeGroup :=
  .kept Silent.currentSpan.keeps fun _ => (Eats.take h (by decide)).bind

theorem blind_portTarget : Blind K ts portTarget portTarget := by
  refine Blind.eat (by decide) (fun _ _ _ _ => .pure _) fun _ => ?_
  refine blind_expectIdentifier.bind fun name _ _ => ?_
  refine Blind.eat (by decide) (fun _ _ _ _ => ?_) fun _ => .pure _
  refine (blind_unlessAt blind_expression).bind fun actual _ _ => ?_
  exact (blind_expect (by decide)).bind fun _ _ _ => .pure _

theorem blind_portItem : Blind K ts portItem portItem := by
  refine blind_currentSpan.bind fun start us _ => ?_
  refine Blind.look fun c _ => ?_
  refine (blind_itemsAt eats_attributeGroup fun _ => blind_attributeGroup).bind
    fun attributes _ _ => ?_
  refine Blind.eat (by decide) (fun _ _ _ _ => ?_) fun _ => ?_
  · refine blind_portTarget.bind fun target _ _ => ?_
    exact (blind_spanFrom start).bind fun _ _ _ => .pure _
  · refine (blind_unlessAt (blind_unlessAt blind_expression)).bind fun expr _ _ => ?_
    exact (blind_spanSince start c.consumed).bind fun _ _ _ => .pure _

theorem blind_portList : Blind K ts portList portList := by
  refine Blind.sees (fun _ => .pure _) fun _ => ?_
  refine blind_portItem.bind fun first _ _ => ?_
  refine (blind_moreItems fun _ _ => blind_portItem).bind fun rest _ _ => ?_
  split
  · exact (blind_keepForm _ _ _).bind fun _ _ _ => .pure _
  · exact (blind_keepForm _ _ _).bind fun _ _ _ => .pure _

theorem blind_dimension : Blind K ts dimension dimension := by
  refine blind_currentSpan.bind fun start _ _ => ?_
  refine blind_take.bind fun _ _ _ => ?_
  refine blind_expression.bind fun first _ _ => ?_
  refine Blind.eat (by decide) (fun _ _ _ _ => ?_) fun _ => ?_
  · refine blind_expression.bind fun lsb _ _ => ?_
    refine (blind_expect (by decide)).bind fun _ _ _ => ?_
    exact (blind_spanFrom start).bind fun _ _ _ => .pure _
  · refine (blind_expect (by decide)).bind fun _ _ _ => ?_
    exact (blind_spanFrom start).bind fun _ _ _ => .pure _

theorem eats_dimension (r : List Token) (h : headKind r = .leftBracket) : Eats r dimension :=
  .kept Silent.currentSpan.keeps fun _ => (Eats.take h (by decide)).bind

theorem blind_instanceName : Blind K ts instanceName instanceName := by
  refine blind_currentSpan.bind fun start us _ => ?_
  refine Blind.look fun c _ => ?_
  refine (blind_nameOr _).bind fun name _ _ => ?_
  refine (blind_itemsAt eats_dimension fun _ => blind_dimension).bind fun dimensions _ _ => ?_
  exact (blind_spanSince start c.consumed).bind fun _ _ _ => .pure _

theorem blind_connections : Blind K ts connections connections := by
  refine Blind.eat (by decide) (fun _ _ _ _ => ?_) fun _ => ?_
  · refine blind_portList.bind fun ports _ _ => ?_
    exact (blind_expect (by decide)).bind fun _ _ _ => .pure _
  · exact Blind.current ((blind_report _).bind fun _ _ _ => .pure _)

theorem blind_hierarchicalInstance : Blind K ts hierarchicalInstance hierarchicalInstance := by
  refine blind_currentSpan.bind fun start _ _ => ?_
  refine blind_instanceName.bind fun name _ _ => ?_
  refine blind_connections.bind fun ports _ _ => ?_
  exact (blind_spanFrom start).bind fun _ _ _ => .pure _

theorem blind_endOfStatement : Blind K ts endOfStatement endOfStatement := by
  refine Blind.eat (by decide) (fun _ _ _ _ => .pure _) fun _ => ?_
  exact Blind.current ((blind_report _).bind fun _ _ _ => blind_recoverToSemicolon)

theorem blind_instantiation : Blind K ts instantiation instantiation := by
  refine blind_currentSpan.bind fun start _ _ => ?_
  refine blind_expectIdentifier.bind fun module _ _ => ?_
  refine (blind_whenAt fun _ => blind_paramClause).bind fun params _ _ => ?_
  refine blind_hierarchicalInstance.bind fun first _ _ => ?_
  refine (blind_moreItems fun _ _ => blind_hierarchicalInstance).bind fun more _ _ => ?_
  refine blind_endOfStatement.bind fun _ _ _ => ?_
  exact (blind_spanFrom start).bind fun _ _ _ => .pure _

end Netlist.Parser
