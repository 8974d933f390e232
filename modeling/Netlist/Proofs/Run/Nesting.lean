import Netlist.Proofs.Parser.Lays.Instantiation
import Netlist.Proofs.Run.Accounted

/-!
Spans nest. Items, units and whole files lie over their tokens where no syntax error is reported,
and so do all nodes in them: each span runs from the first token of its node to the last one, and
those of children lie in it one behind the other. Broken lexemes do not disturb this.
-/
namespace Netlist

namespace Parser

open Syntax

variable {file : Nat} {pre r : List Token}

theorem lays_instantiationItem :
    Lays file pre r instantiationItem fun item ts _ => item.node.Over file ts := by
  refine .currentSpan fun start hstart => .look fun c _ => ?_
  refine lays_instantiation.bind fun stmt ts r₁ hr₁ hstmt => .look fun d _ => ?_
  split
  · refine .spanFrom ts ⟨pre, rfl⟩ (hstart ts r₁ hr₁ hstmt.span.ne_nil) fun span hover => .pure ?_
    rw [List.append_nil]
    have hall : Cover file [.tokens fun _ => true] (ts ++ []) := .tokens (fun _ _ => rfl) .nil
    rw [List.append_nil] at hall
    exact ⟨hall, hover⟩
  · refine .pure ?_
    rwa [List.append_nil]

theorem lays_otherItem {c : Cursor} (hc : c.Between file pre r) :
    Lays file pre r (otherItem c) fun item ts _ => item.node.Over file ts := by
  have hbroken {Q : Item → List Token → List Token → Prop} {pre r : List Token} :
      Lays file pre r (brokenItem c) Q := .report
  unfold otherItem
  dsimp only
  split
  · refine Lays.anything.bind fun _ ts r₁ hr₁ _ => .look fun d hd => ?_
    split
    next hmore =>
      have hne : ts ≠ [] := by
        rintro rfl
        rw [hd.consumed, hc.consumed, List.append_nil] at hmore
        exact Nat.lt_irrefl _ hmore
      refine .spanFrom ts ⟨pre, rfl⟩ (hc.opens ts r₁ hr₁ hne) fun span hover => .pure ?_
      rw [List.append_nil]
      obtain ⟨t, us, rfl⟩ := List.exists_cons_of_ne_nil hne
      have hleading : (Node.leaf (fun _ => true) c.currentSpan).Over file [t] :=
        .leaf rfl (currentSpan_of_rest (hc.rest.trans hr₁) hc.file)
      have hothers : Cover file [.tokens fun _ => true] (us ++ []) := .tokens (fun _ _ => rfl) .nil
      rw [List.append_nil] at hothers
      exact ⟨.child hleading hothers, hover⟩
    next => exact hbroken
  · exact hbroken

/-- An item, or a semicolon alone. -/
theorem lays_item? {c : Cursor} (hc : c.Between file pre r) :
    Lays file pre r (item? c) fun o ts _ => match o with
      | some item => item.node.Over file ts
      | none => ∃ t, t.kind = .semicolon ∧ ts = [t] := by
  refine .eat (by decide) (fun t r₁ _ ht => .pure ⟨t, ht, rfl⟩) fun _ => ?_
  rw [if_neg Bool.false_ne_true]
  split
  · exact .map lays_instantiationItem
  · exact .map (lays_otherItem hc)

/-- Semicolons in front of a body belong to it. -/
theorem cover_semicolons {items : List Item} {us ts : List Token}
    (hus : ∀ t ∈ us, t.kind = .semicolon) (h : Cover file (bodyParts items) ts) :
    Cover file (bodyParts items) (us ++ ts) := by
  cases h with
  | tokens hvs h =>
    rw [← List.append_assoc]
    refine .tokens (List.forall_mem_append.mpr ⟨fun t ht => ?_, hvs⟩) h
    exact decide_eq_true (hus t ht)

theorem lays_itemsWithin (kind : UnitKind) (bound : Nat) :
    Lays file pre r (itemsWithin kind bound) fun items ts _ => Cover file (bodyParts items) ts := by
  have hnone : Cover file (bodyParts []) ([] ++ []) := .tokens (List.forall_mem_nil _) .nil
  induction bound generalizing pre r with
  | zero => exact .pure hnone
  | succ bound ih =>
    refine .look fun c hc => ?_
    split
    · exact .pure hnone
    · refine (lays_item? hc).bind fun o ts r₁ _ ho => ih.bind fun items us r₂ _ hitems => .pure ?_
      rw [List.append_nil]
      cases o with
      | none =>
        obtain ⟨t, ht, rfl⟩ := ho
        exact cover_semicolons (List.forall_mem_singleton.mpr ht) hitems
      | some item =>
        have hcover : Cover file (bodyParts (item :: items)) ([] ++ (ts ++ us)) :=
          .tokens (List.forall_mem_nil _) (.child ho hitems)
        exact hcover

/-- What is skipped behind the name of a unit, perhaps with a semicolon at its end. -/
theorem lays_recoverToSemicolon :
    Lays file pre r recoverToSemicolon fun _ ts _ => ∃ skipped semicolon,
      ts = skipped ++ semicolon ∧ (∀ t ∈ skipped, isHeaderKind t.kind = true) ∧
        ∀ t ∈ semicolon, t.kind = .semicolon := by
  refine .skipUntil fun skipped r₁ _ hskipped => ?_
  have hheader : ∀ t ∈ skipped, isHeaderKind t.kind = true := by
    intro t ht
    simpa [isHeaderKind] using hskipped t ht
  refine .eat (by decide) (fun t r₂ _ ht => .pure ?_) fun _ => .pure ?_
  · exact ⟨skipped, [t], rfl, hheader, List.forall_mem_singleton.mpr ht⟩
  · exact ⟨skipped, [], rfl, hheader, List.forall_mem_nil _⟩

/-- What stands behind the opening word of a unit. -/
def unitParts (kind : UnitKind) (name : Identifier) (items : List Item)
    (label : Option Identifier) : List Part :=
  name.node.part :: .tokens isHeaderKind :: (bodyParts items ++ .mark (.unitEnd kind) ::
    label.elim [] fun label => [.mark .colon, label.node.part])

theorem lays_unitBody (kind : UnitKind) :
    Lays file pre r (unitBody kind) fun body ts _ =>
      Cover file (unitParts kind body.1 body.2.1 body.2.2) ts := by
  refine Lays.nameOr.bind fun name is r₁ _ hname => ?_
  refine lays_recoverToSemicolon.bind fun _ hs r₂ _ hheader => .remaining ?_
  obtain ⟨skipped, semicolon, rfl, hskipped, hsemicolon⟩ := hheader
  refine (lays_itemsWithin kind r₂.length).bind fun items bs r₃ _ hitems => ?_
  refine .expect nofun fun word r₄ _ hword => ?_
  have hlabel : Lays file (pre ++ is ++ (skipped ++ semicolon) ++ bs ++ [word]) r₄ endLabel?
      fun label ls _ =>
        Cover file (label.elim [] fun label => [.mark .colon, label.node.part]) ls :=
    .after (by decide) (fun _ => .nil) fun colon r₅ _ hcolon =>
      Lays.nameOr.mono fun label ls _ _ hlabel => .mark hcolon (.sole hlabel)
  refine hlabel.bind fun label ls r₅ _ hlabel => .pure ?_
  have hbody := (cover_semicolons hsemicolon hitems).append (.mark hword hlabel)
  have hcover : Cover file (unitParts kind name items label)
      (is ++ (skipped ++ (semicolon ++ bs ++ word :: ls))) :=
    .child hname (.tokens hskipped hbody)
  simpa using hcover

theorem lays_designUnit {kind : UnitKind} (hkind : headKind r = .unitStart kind) :
    Lays file pre r (designUnit kind) fun unit ts _ => unit.node.Over file ts := by
  refine .currentSpan fun start hstart => .take hkind nofun fun word r₁ hr₁ hword => ?_
  refine (lays_unitBody kind).bind fun body us r₂ hr₂ hbody => ?_
  obtain ⟨name, items, label⟩ := body
  refine .spanFrom (word :: us) ⟨pre, by simp⟩ ?_ fun span hover => .pure ?_
  · exact hstart _ r₂ (by simp [hr₁, hr₂]) nofun
  · rw [List.append_nil]
    exact ⟨.mark hword hbody, hover⟩

/-- The units of a file reach to its end. -/
theorem lays_unitsWithin {bound : Nat} (hbound : r.length ≤ bound) :
    Lays file pre r (unitsWithin bound) fun units ts r' =>
      Cover file (units.map fun unit => unit.node.part) ts ∧ headKind r' = .eof := by
  induction bound generalizing pre r with
  | zero =>
    rw [List.length_eq_zero_iff.mp (Nat.le_zero.mp hbound)]
    exact .pure ⟨.nil, rfl⟩
  | succ bound ih =>
    refine .current ?_
    split
    next hkind => exact .pure ⟨.nil, hkind⟩
    next kind hkind =>
      refine (lays_designUnit hkind).bind fun unit us r₁ hr₁ hunit => ?_
      have hless : r₁.length ≤ bound := by
        have hpos := List.length_pos_iff.mpr hunit.span.ne_nil
        rw [hr₁, List.length_append] at hbound
        omega
      refine (ih hless).bind fun units vs r₂ _ hunits => .pure ⟨?_, hunits.2⟩
      rw [List.append_nil]
      exact .child hunit hunits.1
    next => exact .report

theorem lays_sourceText :
    Lays file pre r sourceText fun text ts r' =>
      text.node.Lies file ts r' ∧ headKind r' = .eof := by
  refine .currentSpan fun start hstart => .look fun c hc => .remaining ?_
  refine (lays_unitsWithin le_rfl).bind fun units ts r₁ hr₁ hunits => ?_
  have hnodes : ∀ p ∈ units.map fun unit => unit.node.part, p.node?.isSome := by
    intro p hp
    obtain ⟨_, _, rfl⟩ := List.mem_map.mp hp
    rfl
  rw [hc.consumed]
  refine .spanSince_nodes hr₁ hc.ne_nil hunits.1 hnodes hstart fun span hlies => .pure ?_
  rw [List.append_nil]
  exact ⟨hlies, hunits.2⟩

theorem between_start (file : Nat) (content : String) :
    Cursor.Between file [] (lex file content).1 { file := file, rest := (lex file content).1 } where
  file := rfl
  prev := rfl
  rest := rfl
  consumed := rfl
  ordered := pairwise_lex file content
  stands := stands_lex file content

end Parser

/-- The tree of a text over its tokens: together with the one at the end they are all the tokens of
the text, and the spans of all nodes nest. -/
structure Syntax.Node.Spans (file : Nat) (tokens : List Token) (root : Node) : Prop where
  lies : ∃ ts e, tokens = ts ++ [e] ∧ e.kind = .eof ∧ root.Lies file ts [e]
  nests : ∀ n ∈ root.part.nodes, n.Nests file tokens
  leaves : ∀ accepts span, Node.leaf accepts span ∈ root.part.nodes →
    ∃ t ∈ tokens, accepts t.kind = true ∧ span = t.span file

theorem Parser.spans_sourceText (file : Nat) (content : String) (s : Session) :
    ∃ text t ds, (parsingText sourceText file content).run.run s = (.ok text, t) ∧
      (parsingText sourceText file content).run.emitted s = ds ∧
      ((∀ d ∈ ds, d.code ≠ SyntaxError.code) →
        text.node.Spans file (lex file content).1) := by
  obtain ⟨text, c, t, hrun, hmisuse, -⟩ :=
    account_sourceText (pairwise_lex file content) (cursors_ofFile file (lex file content).1)
      (stands_lex file content) ((Task.emitAll (lex file content).2).run s).2
  obtain ⟨hparse, hemitted⟩ := parsingText_run hrun hmisuse
  refine ⟨text, t, _, hparse, hemitted, fun hclean => ?_⟩
  have hquiet : (sourceText.task { file := file, rest := (lex file content).1 }).emitted
      ((Task.emitAll (lex file content).2).run s).2 = [] := by
    refine List.eq_nil_iff_forall_not_mem.mpr fun d hd => ?_
    exact hclean d (List.mem_append_right _ hd) (code_of_mem_task hd)
  obtain ⟨ts, hpasses⟩ := Cursor.Passes.exists_run sourceText
    { file := file, rest := (lex file content).1 } ((Task.emitAll (lex file content).2).run s).2
  rw [hrun] at hpasses
  obtain ⟨hlies, hkind⟩ := lays_sourceText _ _ _ _ _ ts (between_start file content) hrun hquiet
    hpasses
  have hstands := hpasses.stands (stands_lex file content)
  obtain ⟨e, heof, hend⟩ := rest_atEnd (pairwise_lex file content) hstands
    ((current_of_rest rfl).trans hkind)
  have htokens : (lex file content).1 = ts ++ [e] := by
    rw [← hend]
    exact hpasses.rest
  rw [hend] at hlies
  have hplaced : Placed ts := by
    have hlex := placed_lex file content
    rwa [htokens, List.dropLast_concat] at hlex
  have hnests : ∀ n ∈ text.node.part.nodes, n.Nests file (lex file content).1 :=
    hlies.nests hplaced (show _ = [] ++ ts ++ [e] from htokens)
  exact ⟨⟨ts, e, htokens, heof, hlies⟩, hnests, fun accepts span hleaf => (hnests _ hleaf).of_leaf⟩

/-- In the tree of a file parsed without a syntax error all spans nest: each node runs from the
start of its first token to the end of its last one, or is empty where the next token starts if it
has none; its children lie in it one behind the other; names and literals are single tokens. -/
theorem spans_nest {sources : Sources} {file : Nat} {f : SourceFile}
    (hf : sources.file file = .ok f) (session : Session) :
    ∃ text after ds, Parser.parseFile sources file session = .ok (text, after) ∧
      after.log.held.toList = session.log.held.toList ++ ds ∧
      ((∀ d ∈ ds, d.code ≠ Parser.SyntaxError.code) →
        text.node.Spans file (lex file f.content).1) := by
  obtain ⟨text, t, ds, hparse, hemitted, hspans⟩ :=
    Parser.spans_sourceText file f.content session
  obtain ⟨hrun, -⟩ := Parser.parsing_run hf Parser.sourceText session
  have hheld := Task.held_run (Parser.parsingText Parser.sourceText file f.content).run session
  rw [hparse, hemitted] at hheld
  refine ⟨text, t, ds, ?_, hheld, hspans⟩
  rw [Parser.parseFile, hrun, hparse]
  rfl

private def nestedText : String :=
  "module m; wire w; leaf #(8) u[1:0] (a.b[3], , -c + $f(), € ); endmodule : m"

private def nestedSources : Sources := Sources.ofList [("m.sv", nestedText)]

/-- A broken lexeme is no syntax error. -/
theorem spans_nest_broken_lexeme : ∃ text after,
    Parser.parseFile nestedSources 0 {} = .ok (text, after) ∧ after.log.held.toList ≠ [] ∧
      text.node.Spans 0 (lex 0 nestedText).1 := by
  have hf : nestedSources.file 0 = .ok ⟨"m.sv", nestedText⟩ := rfl
  obtain ⟨text, after, ds, hparse, hheld, hspans⟩ := spans_nest hf {}
  have hclean : (Parser.parseFile nestedSources 0 {}).toOption.map (fun p =>
      (p.2.log.held.toList.map fun d => decide (d.code = Parser.SyntaxError.code))) =
        some [false] := by decide +kernel
  rw [hparse] at hclean
  have hcodes : after.log.held.toList.map (fun d => decide (d.code = Parser.SyntaxError.code)) =
      [false] := Option.some.inj hclean
  refine ⟨text, after, hparse, ?_, hspans fun d hd => ?_⟩
  · intro hnil
    rw [hnil] at hcodes
    cases hcodes
  · have hmem : decide (d.code = Parser.SyntaxError.code) ∈ [false] := by
      rw [← hcodes, hheld]
      exact List.mem_map_of_mem (List.mem_append_right _ hd)
    exact of_decide_eq_false (List.mem_singleton.mp hmem)

end Netlist
