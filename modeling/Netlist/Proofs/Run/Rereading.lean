import Netlist.Proofs.Design.Displayed
import Netlist.Proofs.Run.Statements

/-!
Expressions read from their own texts. What a source text is lowered to has a text of its own, with
parentheses around every operator; read in turn, that text gives the same expression. The tree may
be another one, since the parentheses are new, but lowering drops them.
-/
namespace Netlist

namespace Lowering

open Design (Expr)
open List (Forall₂)

section Congruence

variable {ctx : Context} {N : Nat → Nat → Prop} {L : Span → Span → Prop}

theorem identifier_congr {i i' : Syntax.Identifier} (h : i.name = i'.name) :
    identifier i = identifier i' := by
  unfold identifier
  rw [h]

theorem members_congr {parts parts' : List Syntax.Identifier} (hN : ∀ i j, N i j → i = j)
    (h : Forall₂ (fun i i' : Syntax.Identifier => N i.name i'.name) parts parts') (base : Expr) :
    members base parts = members base parts' := by
  induction h generalizing base with
  | nil => rfl
  | cons hi _ ih => simp only [members, identifier_congr (hN _ _ hi), ih]

theorem name_congr {tree tree' : Syntax.Expr} (hN : ∀ i j, N i j → i = j)
    (hname : tree.isName = true) (h : tree.Same N L tree') :
    expression ctx tree = expression ctx tree' := by
  cases h with
  | identifier hi => rw [expression, expression, identifier_congr (hN _ _ hi)]
  | inScope ha hb =>
    rw [expression, expression, identifier_congr (hN _ _ ha), identifier_congr (hN _ _ hb)]
  | _ => cases hname

theorem expressions_congr {trees trees' : List Syntax.Expr}
    (h : Forall₂ (Syntax.Expr.Same N L) trees trees')
    (hcongr : ∀ tree ∈ trees, ∀ {tree' : Syntax.Expr}, tree.Same N L tree' →
      expression ctx tree = expression ctx tree') :
    expressions ctx trees = expressions ctx trees' := by
  induction h with
  | nil => rfl
  | cons htree _ ih =>
    obtain ⟨hfirst, hcongr⟩ := List.forall_mem_cons.mp hcongr
    rw [expressions, expressions, hfirst htree, ih hcongr]

/-- Lowering reads the names and the places of literals, and no other span unless it fails. -/
theorem expression_congr {tree tree' : Syntax.Expr} (hN : ∀ i j, N i j → i = j)
    (hL : ∀ s s', L s s' → s = s') (hgrouped : tree.Grouped) (h : tree.Same N L tree') :
    expression ctx tree = expression ctx tree' := by
  induction hgrouped generalizing tree' with
  | identifier => exact name_congr hN rfl h
  | hierarchical hlength =>
    cases h with
    | hierarchical hparts =>
      cases hparts with
      | nil => cases hlength
      | cons hi hparts =>
        simp only [expression, identifier_congr (hN _ _ hi), members_congr hN hparts]
  | inScope => exact name_congr hN rfl h
  | literal =>
    cases h with
    | literal hs => rw [hL _ _ hs]
  | realLiteral =>
    cases h with
    | realLiteral hs => rw [hL _ _ hs]
  | stringLiteral =>
    cases h with
    | stringLiteral hs => rw [hL _ _ hs]
  | index _ _ _ iha ihb =>
    cases h with
    | index ha hb => rw [expression, expression, iha ha, ihb hb]
  | rangeSelect _ _ _ _ iha ihb ihc =>
    cases h with
    | rangeSelect ha hb hc => rw [expression, expression, iha ha, ihb hb, ihc hc]
  | partSelect _ _ _ _ iha ihb ihc =>
    cases h with
    | partSelect ha hb hc => rw [expression, expression, iha ha, ihb hb, ihc hc]
  | concat _ _ ih =>
    cases h with
    | concat hes => rw [expression, expression, expressions_congr hes ih]
  | replicate _ _ _ ihn ih =>
    cases h with
    | replicate hn hes => rw [expression, expression, ihn hn, expressions_congr hes ih]
  | unary _ _ _ iha =>
    cases h with
    | unary ha => rw [expression, expression, iha ha]
  | binary _ _ _ _ _ _ iha ihb =>
    cases h with
    | binary ha hb => rw [expression, expression, iha ha, ihb hb]
  | ternary _ _ _ _ iha ihb ihc =>
    cases h with
    | ternary ha hb hc => rw [expression, expression, iha ha, ihb hb, ihc hc]
  | call hname _ ih =>
    cases h with
    | call hf hes =>
      rw [expression, expression, name_congr hN hname hf, expressions_congr hes ih]
  | systemCall _ ih =>
    cases h with
    | systemCall hi hes => rw [expression, expression, hN _ _ hi, expressions_congr hes ih]
  | paren _ iha =>
    cases h with
    | paren ha => rw [expression, expression, iha ha]

end Congruence

/-- Whatever tree the parser makes of tokens that tell an expression, it lowers to that. -/
theorem Told.accepts {names : Names} {file : Nat} {e : Expr} {ts rest : List Token}
    (h : Told names file e ts) (hrest : Parser.headKind rest ∈ Parser.followers) :
    Parser.Accepts file Parser.expression ts rest fun N tree => names.Extends N →
      ∀ ctx : Context, ctx.Holds file ts → Gives names (expression ctx tree) e := by
  obtain ⟨tree, -, htree⟩ := h
  refine (Parser.accepts_expression htree.grouped htree.written hrest).mono ?_
  intro N tree' hsame hN ctx hctx
  have hnames : ∀ i j, (Syntax.Writing.ofNames names file).names N i j → i = j := by
    rintro i j ⟨text, hi, hj⟩
    rw [hN.find? hi] at hj
    exact Option.some_inj.mp hj
  have hspans : ∀ s s', (Syntax.Writing.ofNames names file).spans file s s' → s = s' := by
    rintro s s' ⟨t, hs, hs'⟩
    exact hs.trans hs'.symm
  rw [← expression_congr hnames hspans htree.grouped hsame]
  exact htree.gives ctx hctx

end Lowering

namespace Design

open Lowering (Context)

/-- The parser takes just the tokens `taken`, with `before` behind it and `rest` ahead, for this
tree, and reports nothing. -/
structure TakenFor (file : Nat) (before taken rest : List Token) (s : Session)
    (tree : Syntax.Expr) (s' : Session) : Prop where
  run : (Parser.expression.task (.between file before (taken ++ rest))).run s =
    ((tree, .between file (before ++ taken) rest), s')
  quiet : (Parser.expression.task (.between file before (taken ++ rest))).emitted s = []

/-- An expression of a source text, lowered without a diagnostic, can be read from its own text: by
any parser that knows the names it was read with, up to the end, and again without a diagnostic. The
expression that results is the same one. Escaped names are left out, as are reals that do not end
with a digit and strings with other escapes than they are read with. -/
theorem expression_reread {ctx : Context} {file : Nat} {f : SourceFile}
    {before taken rest : List Token} {tree : Syntax.Expr} {e : Expr} {s t t' : Session}
    (hf : ctx.sources.file file = .ok f)
    (hlex : lex file f.content = (before ++ (taken ++ rest), []))
    (hparse : TakenFor file before taken rest s tree t)
    (hlower : (Lowering.expression ctx tree).run.run.run t = (.ok (.ok e), t'))
    (hplain : ∀ u ∈ taken, u.kind ≠ .escapedIdentifier) (hport : e.IsPortable) :
    ∃ text, e.text t'.names = .ok text ∧
      ∀ (ctx' : Context) (file' : Nat) (f' : SourceFile) (r : Session),
        ctx'.sources.file file' = .ok f' → f'.content = text → t'.names.Extends r.names →
        ∃ ts tree' r',
          lex file' text = (ts ++ [.endAt (Text.byteLength text.toList)], []) ∧
          TakenFor file' [] ts [.endAt (Text.byteLength text.toList)] r tree' r' ∧
          (Lowering.expression ctx' tree').run.run.run r' = (.ok (.ok e), r') ∧
          (Lowering.expression ctx' tree').run.run.emitted r' = [] := by
  have hclean : (lex file f.content).2 = [] := by rw [hlex]
  have hmem : ∀ u ∈ taken, u ∈ (lex file f.content).1 := fun u hu => by
    rw [hlex]
    exact List.mem_append_right _ (List.mem_append_left _ hu)
  -- The tree is written with the tokens taken, so lowering only looks at names that are there.
  obtain ⟨hgrouped, hwritten⟩ := Parser.ensures_expression _ s taken tree _ t rfl rfl
    ⟨hparse.run, hparse.quiet, rfl, fun u hu => Parser.kind_ne_error hclean (hmem u hu)⟩ (.refl _)
  have hread : ∀ u ∈ taken, Lowering.IsPlain ctx file u := fun u hu =>
    ⟨shaped_of_mem_lex hclean (hmem u hu), hplain u hu, snippet_of_mem_lex hf (hmem u hu)⟩
  obtain ⟨result, hsettled, hsound⟩ :=
    Lowering.settles_expression tree hgrouped hwritten hread
  have hrun := (hsettled t (.refl _)).1
  cases hlower.symm.trans hrun
  obtain ⟨cs, hcs⟩ := (hsound e rfl hport).exists_displayed
  refine ⟨String.ofList cs, hcs.text, fun ctx' file' f' r hf' hcontent hr => ?_⟩
  rw [String.toList_ofList]
  obtain ⟨ts, hlex', htold⟩ := (hcs.lexes file' .nil).lex file'
  have hholds : ctx'.Holds file' ts := fun u hu => by
    refine snippet_of_mem_lex hf' ?_
    rw [hcontent, hlex']
    exact List.mem_append_left _ hu
  have haccepts : Parser.Accepts file' Parser.expression ts
      [Token.endAt (Text.byteLength cs)] _ := htold.accepts (Parser.mem_followers (.inl rfl))
  obtain ⟨tree', r', hrun', hquiet, hnames, hgives⟩ :=
    haccepts.between Parser.mirror_expression [] r
  have hknown := hr.trans hnames
  obtain ⟨hlower', hquiet'⟩ := hgives hknown ctx' hholds r' hknown
  exact ⟨ts, tree', r', hlex', ⟨hrun', hquiet⟩, hlower', hquiet'⟩

/-- The tokens of `-a+4'hF_0`. -/
def sumTokens : List Token :=
  [⟨.minus, "-", 0, 1⟩, ⟨.identifier, "a", 1, 2⟩, ⟨.plus, "+", 2, 3⟩,
   ⟨.sizedLiteral, "4'hF_0", 3, 9⟩]

/-- Its tree, with the places in the source text. -/
def sumTree : Syntax.Expr :=
  .binary (.unary .minus (.identifier ⟨0, ⟨0, 1, 2⟩⟩) ⟨0, 0, 2⟩) .add (.literal ⟨0, 3, 9⟩) ⟨0, 0, 9⟩

/-- What it is lowered to. -/
def sumExpr : Expr :=
  .binary (.operator .add) (.unary .minus (.id 0)) (.literal (.based (some 4) false .hex "f0"))

theorem expression_reread_sum :
    ∃ text, sumExpr.text ⟨#["a"]⟩ = .ok text ∧
      ∀ (ctx' : Context) (file' : Nat) (f' : SourceFile) (r : Session),
        ctx'.sources.file file' = .ok f' → f'.content = text →
        (Names.mk #["a"]).Extends r.names →
        ∃ ts tree' r',
          lex file' text = (ts ++ [.endAt (Text.byteLength text.toList)], []) ∧
          TakenFor file' [] ts [.endAt (Text.byteLength text.toList)] r tree' r' ∧
          (Lowering.expression ctx' tree').run.run.run r' = (.ok (.ok sumExpr), r') ∧
          (Lowering.expression ctx' tree').run.run.emitted r' = [] :=
  have hf : (Sources.ofList [("a.sv", "-a+4'hF_0")]).file 0 = .ok ⟨"a.sv", "-a+4'hF_0"⟩ := rfl
  have hparse : TakenFor 0 [] sumTokens [.endAt 9] {} sumTree { names := ⟨#["a"]⟩ } :=
    ⟨by cbv, by cbv⟩
  have hlower : (Lowering.expression ⟨Sources.ofList [("a.sv", "-a+4'hF_0")], .warning⟩
      sumTree).run.run.run { names := ⟨#["a"]⟩ } = (.ok (.ok sumExpr), { names := ⟨#["a"]⟩ }) := rfl
  have hport : ∀ l ∈ sumExpr.literals, l.isPortable = true := List.forall_mem_singleton.mpr rfl
  expression_reread hf rfl hparse hlower (by decide) hport

end Design

end Netlist
