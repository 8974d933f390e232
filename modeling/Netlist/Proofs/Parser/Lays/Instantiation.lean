import Netlist.Proofs.Parser.Lays.Expression

/-!
The nodes of statements lie over the tokens they were parsed from. A blank port takes no token and
stands empty before the comma or the parenthesis behind it; every other node has tokens of its own.
Where nothing is reported all items of a list have one form, so none is dropped.
-/
namespace Netlist.Parser

open List (Forall₂)
open Syntax

variable {file : Nat} {pre r : List Token}

theorem lays_packedRange (hkind : headKind r = .leftBracket) :
    Lays file pre r packedRange fun range ts _ => range.node.Over file ts := by
  refine .currentSpan fun start hstart => .take hkind (by decide) fun opening r₁ hr₁ hopening => ?_
  refine lays_expression.bind fun msb ms r₂ hr₂ hmsb => ?_
  refine .expect (by decide) fun colon r₃ hr₃ hcolon => ?_
  refine lays_expression.bind fun lsb ls r₄ hr₄ hlsb => ?_
  refine .expect (by decide) fun closing r₅ hr₅ hclosing => ?_
  refine .spanFrom (opening :: (ms ++ colon :: (ls ++ [closing]))) ⟨pre, by simp⟩ ?_
    fun span hover => .pure ⟨?_, hover⟩
  · exact hstart _ r₅ (by simp [hr₁, hr₂, hr₃, hr₄, hr₅]) nofun
  · exact .mark hopening (.child hmsb (.mark hcolon (.child hlsb (.mark hclosing .nil))))

theorem lays_signingHere :
    Lays file pre r signingHere fun signing ts _ =>
      Cover file (signing.map fun s => (Node.leaf (· = .signing s.1) s.2).part).toList ts := by
  refine .current ?_
  split
  next s hkind =>
    refine .currentSpan fun span hspan => .take hkind nofun fun t r₁ hr₁ ht => .pure ?_
    exact .sole (.leaf (decide_eq_true ht) (hspan [t] r₁ hr₁ nofun).eq_token)
  next => exact .pure .nil

theorem lays_dataTypeOf {kind : BuiltinType} (hkind : headKind r = .dataType kind) :
    Lays file pre r (dataTypeOf kind) fun type ts _ => type.node.Over file ts := by
  refine .currentSpan fun start hstart => .take hkind nofun fun t r₁ hr₁ ht => ?_
  refine lays_signingHere.bind fun signing ss r₂ hr₂ hsigning => ?_
  have hpacked : Lays file (pre ++ [t] ++ ss) r₂ (itemsAt .leftBracket packedRange)
      fun packed ps _ => Cover file (packed.map fun range => range.node.part) ps :=
    .nodesAt fun pre r hr => lays_packedRange hr
  refine hpacked.bind fun packed ps r₃ hr₃ hpacked => ?_
  refine .spanFrom (t :: (ss ++ ps)) ⟨pre, by simp⟩ ?_ fun span hover => .pure ?_
  · exact hstart _ r₃ (by simp [hr₁, hr₂, hr₃]) nofun
  · rw [List.append_nil]
    exact ⟨.mark ht (hsigning.append hpacked), hover⟩

theorem lays_paramValue : Lays file pre r paramValue fun value ts _ => value.node.Over file ts := by
  refine .current ?_
  split
  next kind hkind => exact .map (lays_dataTypeOf hkind)
  next => exact .map lays_expression

/-- An item of a parameter list. -/
def ParamItem.node : ParamItem → Node
  | .ordered value => value.node
  | .named item => item.node

theorem lays_paramItem : Lays file pre r paramItem fun item ts _ => item.node.Over file ts := by
  refine .currentSpan fun start hstart => .eat (by decide) (fun dot r₁ hr₁ hdot => ?_) fun _ => ?_
  · refine Lays.nameOr.bind fun name is r₂ hr₂ hname => ?_
    refine .expect (by decide) fun opening r₃ hr₃ hopening => ?_
    have hvalue : Lays file (pre ++ [dot] ++ is ++ [opening]) r₃ (unlessAt .rightParen paramValue)
        fun value vs _ => Cover file (value.map fun value => value.node.part).toList vs :=
      .unlessAt (fun _ => .nil) fun _ => lays_paramValue.mono fun _ _ _ _ h => .sole h
    refine hvalue.bind fun value vs r₄ hr₄ hvalue => ?_
    refine .expect (by decide) fun closing r₅ hr₅ hclosing => ?_
    refine .spanFrom (dot :: (is ++ opening :: (vs ++ [closing]))) ⟨pre, by simp⟩ ?_
      fun span hover => .pure ⟨?_, hover⟩
    · exact hstart _ r₅ (by simp [hr₁, hr₂, hr₃, hr₄, hr₅]) nofun
    · exact .mark hdot (.child hname (.mark hopening (hvalue.append (.mark hclosing .nil))))
  · exact .map lays_paramValue

/-- Where nothing is reported all items have the form. -/
theorem lays_keepForm {α β : Type} {form : α → Option β} {e : SyntaxError}
    {items : List (α × Span)} :
    Lays file pre r (keepForm form e items) fun kept ts _ =>
      ts = [] ∧ Forall₂ (fun item b => form item.1 = some b) items kept := by
  induction items with
  | nil => exact .pure ⟨rfl, .nil⟩
  | cons item items ih =>
    unfold keepForm
    split
    next b hb => exact .stay ih fun kept hkept => .pure ⟨rfl, .cons hb hkept⟩
    next => exact .reportAt

/-- Items that are kept have the nodes they had before. -/
theorem map_node_kept {α β : Type} {node : α → Node} {node' : β → Node} {form : α → Option β}
    {items : List (α × Span)} {kept : List β}
    (hkept : Forall₂ (fun item b => form item.1 = some b) items kept)
    (hform : ∀ {a b}, form a = some b → node a = node' b) :
    items.map (fun item => node item.1) = kept.map node' := by
  induction hkept with
  | nil => rfl
  | cons hb _ ih => rw [List.map_cons, List.map_cons, hform hb, ih]

theorem ParamItem.node_ordered? {item : ParamItem} {value : ParamValue}
    (h : item.ordered? = some value) : item.node = value.node := by
  cases item <;> cases h
  rfl

theorem ParamItem.node_named? {item : ParamItem} {param : NamedParam}
    (h : item.named? = some param) : item.node = param.node := by
  cases item <;> cases h
  rfl

theorem lays_paramList :
    Lays file pre r paramList fun list ts r' => Leads file (betweenCommas list.nodes) ts r' := by
  refine lays_paramItem.bind fun first us r₁ _ hfirst => ?_
  have hrest : Lays file (pre ++ us) r₁ (moreItems paramItemWithSpan) fun items vs r' =>
      Leads file (afterCommas (items.map fun item => item.1.node)) vs r' :=
    .moreItems fun pre r => .currentSpan fun span _ => .map
      (lays_paramItem.mono fun _ _ _ _ h => .child h)
  refine hrest.bind fun items vs r₂ hr₂ hitems => ?_
  subst hr₂
  cases first with
  | ordered value =>
    refine .stay lays_keepForm fun kept hkept => .pure ?_
    rw [map_node_kept hkept ParamItem.node_ordered?] at hitems
    rw [List.append_nil]
    exact (Leads.child hfirst).append hitems
  | named item =>
    refine .stay lays_keepForm fun kept hkept => .pure ?_
    rw [map_node_kept hkept ParamItem.node_named?] at hitems
    rw [List.append_nil]
    exact (Leads.child hfirst).append hitems

theorem lays_paramClause :
    Lays file pre r paramClause fun clause ts _ => clause.node.Over file ts := by
  refine .currentSpan fun start hstart => .expect (by decide) fun hash r₁ hr₁ hhash => ?_
  refine .expect (by decide) fun opening r₂ hr₂ hopening => ?_
  have hlist : Lays file (pre ++ [hash] ++ [opening]) r₂ (unlessAt .rightParen paramList)
      fun list us r' => Leads file (betweenCommas (list.elim [] ParamList.nodes)) us r' :=
    .unlessAt (fun _ => .nil) fun _ => lays_paramList
  refine hlist.bind fun list us r₃ hr₃ hlist => ?_
  refine .expect (by decide) fun closing r₄ hr₄ hclosing => ?_
  subst hr₄
  refine .spanFrom (hash :: opening :: (us ++ [closing])) ⟨pre, by simp⟩ ?_
    fun span hover => .pure ⟨?_, hover⟩
  · exact hstart _ r₄ (by simp [hr₁, hr₂, hr₃]) nofun
  · exact .mark hhash (.mark hopening (hlist.close hclosing))

theorem lays_attributeSpec :
    Lays file pre r attributeSpec fun spec ts _ => spec.node.Over file ts := by
  refine .currentSpan fun start hstart => Lays.nameOr.bind fun name is r₁ hr₁ hname => ?_
  have hvalue : Lays file (pre ++ is) r₁ (after .equals expression) fun value vs _ =>
      Cover file (value.elim [] fun e => [.mark .equals, e.node.part]) vs :=
    .after (by decide) (fun _ => .nil) fun equals r₂ _ hequals =>
      lays_expression.mono fun e ts _ _ he => .mark hequals (.sole he)
  refine hvalue.bind fun value vs r₂ hr₂ hvalue => ?_
  refine .spanFrom (is ++ vs) ⟨pre, by simp⟩ ?_ fun span hover => .pure ?_
  · exact hstart _ r₂ (by simp [hr₁, hr₂]) (by simp [hname.span.ne_nil])
  · rw [List.append_nil]
    exact ⟨.child hname hvalue, hover⟩

theorem lays_attributeGroup (hkind : headKind r = .attrOpen) :
    Lays file pre r attributeGroup fun attr ts _ => attr.node.Over file ts := by
  refine .currentSpan fun start hstart => .take hkind (by decide) fun opening r₁ hr₁ hopening => ?_
  refine lays_attributeSpec.bind fun first us r₂ hr₂ hfirst => ?_
  have hmore : Lays file (pre ++ [opening] ++ us) r₂ (moreItems attributeSpec) fun specs vs r' =>
      Leads file (afterCommas (specs.map AttributeSpec.node)) vs r' :=
    .moreItems fun pre r => lays_attributeSpec.mono fun _ _ _ _ h => .child h
  refine hmore.bind fun specs vs r₃ hr₃ hspecs => ?_
  refine .expect (by decide) fun closing r₄ hr₄ hclosing => ?_
  subst hr₄
  refine .spanFrom (opening :: (us ++ (vs ++ [closing]))) ⟨pre, by simp⟩ ?_
    fun span hover => .pure ⟨?_, hover⟩
  · exact hstart _ r₄ (by simp [hr₁, hr₂, hr₃]) nofun
  · exact .mark hopening (.child hfirst (hspecs.close hclosing))

theorem lays_portTarget :
    Lays file pre r portTarget fun target ts _ => Cover file target.parts ts := by
  refine .eat (by decide) (fun star r₁ _ hstar => .pure (.mark hstar .nil)) fun _ => ?_
  refine Lays.nameOr.bind fun name is r₁ _ hname => ?_
  refine .eat (by decide) (fun opening r₂ _ hopening => ?_) fun _ => .pure ?_
  · have hactual : Lays file (pre ++ is ++ [opening]) r₂ (unlessAt .rightParen expression)
        fun actual es _ => ∀ closing : Token, closing.kind = .rightParen →
          Cover file (PortTarget.port name actual).parts (is ++ opening :: (es ++ [closing])) := by
      have hempty (closing : Token) (hclosing : closing.kind = .rightParen) :
          Cover file (PortTarget.port name none).parts (is ++ opening :: ([] ++ [closing])) :=
        .child hname (.pair hopening hclosing)
      refine .unlessAt (fun _ => hempty) fun _ => ?_
      refine lays_expression.mono fun e es _ _ he closing hclosing => ?_
      exact .child hname (.mark hopening (.child he (.mark hclosing .nil)))
    refine hactual.bind fun actual es r₃ _ hactual => ?_
    exact .expect (by decide) fun closing r₄ _ hclosing => .pure (hactual closing hclosing)
  · exact .child hname (.absent .nil)

/-- An item of a port list. -/
def PortItem.node : PortItem → Node
  | .ordered port => port.node
  | .named port => port.node

theorem lays_portItem :
    Lays file pre r portItem fun item ts r' => item.node.Lies file ts r' := by
  refine .currentSpan fun start hstart => .look fun c hc => ?_
  have hattributes : Lays file pre r (itemsAt .attrOpen attributeGroup) fun attributes as _ =>
      Cover file (attributeParts attributes) as :=
    .nodesAt fun pre r hr => lays_attributeGroup hr
  refine hattributes.bind fun attributes as r₁ hr₁ hattributes => ?_
  refine .eat (by decide) (fun dot r₂ hr₂ hdot => ?_) fun _ => ?_
  · refine lays_portTarget.bind fun target ts r₃ hr₃ htarget => ?_
    refine .spanFrom (as ++ dot :: ts) ⟨pre, by simp⟩ ?_ fun span hover => .pure ?_
    · exact hstart _ r₃ (by simp [hr₁, hr₂, hr₃]) (by simp)
    · rw [List.append_nil]
      exact .inl ⟨hattributes.append (.mark hdot htarget), hover⟩
  · have hexpr : Lays file (pre ++ as) r₁ (unlessAt .comma (unlessAt .rightParen expression))
        fun found es _ => Cover file (found.join.map fun e => e.node.part).toList es :=
      .unlessAt (fun _ => .nil) fun _ => .unlessAt (fun _ => .nil) fun _ =>
        lays_expression.mono fun _ _ _ _ h => .sole h
    refine hexpr.bind fun found es r₂ hr₂ hfound => ?_
    have hnodes : ∀ p ∈ attributeParts attributes ++ (found.join.map fun e => e.node.part).toList,
        p.node?.isSome := by
      intro p hp
      rcases List.mem_append.mp hp with hp | hp
      · obtain ⟨_, _, rfl⟩ := List.mem_map.mp hp
        rfl
      · obtain ⟨_, _, rfl⟩ := Option.map_eq_some_iff.mp (Option.mem_toList.mp hp)
        rfl
    have hall : r = (as ++ es) ++ r₂ := by rw [hr₁, hr₂, List.append_assoc]
    rw [hc.consumed, List.append_assoc]
    refine .spanSince_nodes hall hc.ne_nil (hattributes.append hfound) hnodes hstart
      fun span hlies => .pure ?_
    rwa [List.append_nil]

theorem PortItem.node_ordered? {item : PortItem} {port : OrderedPort}
    (h : item.ordered? = some port) : item.node = port.node := by
  cases item <;> cases h
  rfl

theorem PortItem.node_named? {item : PortItem} {port : NamedPort}
    (h : item.named? = some port) : item.node = port.node := by
  cases item <;> cases h
  rfl

theorem lays_portList :
    Lays file pre r portList fun list ts r' => Leads file (betweenCommas list.nodes) ts r' := by
  refine .sees (fun _ => .pure .nil) fun _ => ?_
  refine lays_portItem.bind fun first us r₁ _ hfirst => ?_
  have hrest : Lays file (pre ++ us) r₁ (moreItems portItem) fun items vs r' =>
      Leads file (afterCommas (items.map PortItem.node)) vs r' :=
    .moreItems fun pre r => lays_portItem.mono fun _ _ _ _ h => .node h
  refine hrest.bind fun items vs r₂ hr₂ hitems => ?_
  subst hr₂
  have hsame : items.map PortItem.node = (items.map PortItem.withSpan).map fun i => i.1.node := by
    rw [List.map_map]
    exact List.map_congr_left fun item _ => by cases item <;> rfl
  rw [hsame] at hitems
  cases first with
  | ordered port =>
    refine .stay lays_keepForm fun kept hkept => .pure ?_
    rw [map_node_kept hkept PortItem.node_ordered?] at hitems
    rw [List.append_nil]
    exact (Leads.node hfirst).append hitems
  | named port =>
    refine .stay lays_keepForm fun kept hkept => .pure ?_
    rw [map_node_kept hkept PortItem.node_named?] at hitems
    rw [List.append_nil]
    exact (Leads.node hfirst).append hitems

theorem lays_dimension (hkind : headKind r = .leftBracket) :
    Lays file pre r dimension fun dim ts _ => dim.node.Over file ts := by
  refine .currentSpan fun start hstart => .take hkind (by decide) fun opening r₁ hr₁ hopening => ?_
  refine lays_expression.bind fun first us r₂ hr₂ hfirst => ?_
  refine .eat (by decide) (fun colon r₃ hr₃ hcolon => ?_) fun _ => ?_
  · refine lays_expression.bind fun lsb vs r₄ hr₄ hlsb => ?_
    refine .expect (by decide) fun closing r₅ hr₅ hclosing => ?_
    refine .spanFrom (opening :: (us ++ colon :: (vs ++ [closing]))) ⟨pre, by simp⟩ ?_
      fun span hover => .pure ⟨?_, hover⟩
    · exact hstart _ r₅ (by simp [hr₁, hr₂, hr₃, hr₄, hr₅]) nofun
    · exact .mark hopening (.child hfirst (.mark hcolon (.child hlsb (.mark hclosing .nil))))
  · refine .expect (by decide) fun closing r₃ hr₃ hclosing => ?_
    refine .spanFrom (opening :: (us ++ [closing])) ⟨pre, by simp⟩ ?_
      fun span hover => .pure ⟨?_, hover⟩
    · exact hstart _ r₃ (by simp [hr₁, hr₂, hr₃]) nofun
    · exact .mark hopening (.child hfirst (.mark hclosing .nil))

theorem lays_instanceName :
    Lays file pre r instanceName fun name ts _ => name.node.Over file ts := by
  refine .currentSpan fun start hstart => .look fun c hc => ?_
  refine Lays.nameOr.bind fun name is r₁ hr₁ hname => ?_
  have hdimensions : Lays file (pre ++ is) r₁ (itemsAt .leftBracket dimension) fun dims ds _ =>
      Cover file (dims.map fun dim => dim.node.part) ds :=
    .nodesAt fun pre r hr => lays_dimension hr
  refine hdimensions.bind fun dims ds r₂ hr₂ hdims => ?_
  rw [hc.consumed, List.append_assoc]
  refine .spanSince (is ++ ds) ?_ fun span hover => .pure ?_
  · exact hstart _ r₂ (by simp [hr₁, hr₂]) (by simp [hname.span.ne_nil])
  · rw [List.append_nil]
    exact ⟨.child hname hdims, hover⟩

theorem lays_connections :
    Lays file pre r connections fun list ts _ => Cover file list.parts ts := by
  refine .eat (by decide) (fun opening r₁ _ hopening => ?_) fun _ => .current .report
  refine lays_portList.bind fun list ps r₂ _ hlist => ?_
  refine .expect (by decide) fun closing r₃ hr₃ hclosing => .pure ?_
  subst hr₃
  exact .mark hopening (hlist.close hclosing)

theorem lays_hierarchicalInstance :
    Lays file pre r hierarchicalInstance fun inst ts _ => inst.node.Over file ts := by
  refine .currentSpan fun start hstart => lays_instanceName.bind fun name ns r₁ hr₁ hname => ?_
  refine lays_connections.bind fun list vs r₂ hr₂ hlist => ?_
  refine .spanFrom (ns ++ vs) ⟨pre, by simp⟩ ?_ fun span hover => .pure ?_
  · exact hstart _ r₂ (by simp [hr₁, hr₂]) (by simp [hname.span.ne_nil])
  · rw [List.append_nil]
    exact ⟨.child hname hlist, hover⟩

theorem lays_endOfStatement :
    Lays file pre r endOfStatement fun _ ts r' =>
      ∃ t, t.kind = .semicolon ∧ ts = [t] ∧ r = t :: r' :=
  .eat (by decide) (fun t r₁ hr₁ ht => .pure ⟨t, ht, rfl, hr₁⟩) fun _ => .current .report

/-- A whole statement. -/
theorem lays_instantiation :
    Lays file pre r instantiation fun stmt ts _ => stmt.node.Over file ts := by
  refine .currentSpan fun start hstart => Lays.nameOr.bind fun name is r₁ hr₁ hname => ?_
  have hparams : Lays file (pre ++ is) r₁ (whenAt .hash paramClause) fun params ps _ =>
      Cover file (params.map fun clause => clause.node.part).toList ps :=
    .whenAt (fun _ => .nil) fun _ => lays_paramClause.mono fun _ _ _ _ h => .sole h
  refine hparams.bind fun params ps r₂ hr₂ hparams => ?_
  refine lays_hierarchicalInstance.bind fun first us r₃ hr₃ hfirst => ?_
  have hmore : Lays file (pre ++ is ++ ps ++ us) r₃ (moreItems hierarchicalInstance)
      fun insts vs r' => Leads file (afterCommas (insts.map Instance.node)) vs r' :=
    .moreItems fun pre r => lays_hierarchicalInstance.mono fun _ _ _ _ h => .child h
  refine hmore.bind fun insts vs r₄ hr₄ hinsts => ?_
  refine lays_endOfStatement.bind fun _ ws r₅ _ hend => ?_
  obtain ⟨t, ht, rfl, rfl⟩ := hend
  refine .spanFrom (is ++ (ps ++ (us ++ (vs ++ [t])))) ⟨pre, by simp⟩ ?_ fun span hover => .pure ?_
  · exact hstart _ r₅ (by simp [hr₁, hr₂, hr₃, hr₄]) (by simp)
  · exact ⟨.child hname (hparams.append (.child hfirst (hinsts.close ht))), hover⟩

end Netlist.Parser
