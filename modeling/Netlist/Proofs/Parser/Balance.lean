import Netlist.Parser.Item
import Netlist.Proofs.Syntax.Statement
import Netlist.Proofs.Token.Joining

/-!
Brackets of statements. The search for the ports of an instance counts brackets of all kinds
together, and the lexer counts attribute brackets; neither knows the grammar. What the grammar
derives closes all it opens, so the search passes over it to where the ports begin, and no attribute
is left open behind a statement.
-/
namespace Netlist.Parser

open Syntax

/-- Tokens that the search for a closing bracket passes over, and that leave as many attributes open
as there were. -/
structure Neutral (ts : List Token) : Prop where
  brackets : ∀ depth rest, afterBalanced (depth + 1) (ts ++ rest) = afterBalanced (depth + 1) rest
  attributes : ∀ n, ts.foldl (fun n t => Lexeme.bracketsAfter n t.kind) n = n

/-- The kinds that neither the search nor the lexer counts. -/
def uncounted : Kind → Bool
  | .leftParen | .leftBracket | .leftBrace | .rightParen | .rightBracket | .rightBrace => false
  | .attrOpen | .attrClose | .eof => false
  | _ => true

/-- The pairs of brackets that the search counts. -/
inductive Brackets (opening closing : Token) : Prop
  | paren : opening.kind = .leftParen → closing.kind = .rightParen → Brackets opening closing
  | square : opening.kind = .leftBracket → closing.kind = .rightBracket → Brackets opening closing
  | curly : opening.kind = .leftBrace → closing.kind = .rightBrace → Brackets opening closing

theorem Brackets.afterBalanced {opening closing : Token} (h : Brackets opening closing)
    (depth : Nat) (rest : List Token) :
    afterBalanced depth (opening :: rest) = afterBalanced (depth + 1) rest ∧
      afterBalanced (depth + 2) (closing :: rest) = afterBalanced (depth + 1) rest ∧
      afterBalanced 1 (closing :: rest) = some rest := by
  cases h <;> simp_all [Parser.afterBalanced]

namespace Neutral

variable {ts us : List Token}

theorem nil : Neutral [] := ⟨fun _ _ => rfl, fun _ => rfl⟩

theorem append (h : Neutral ts) (h' : Neutral us) : Neutral (ts ++ us) where
  brackets depth rest := by rw [List.append_assoc, h.brackets, h'.brackets]
  attributes n := by rw [List.foldl_append, h.attributes, h'.attributes]

theorem plain {t : Token} (ht : uncounted t.kind = true) : Neutral [t] where
  brackets depth rest := by
    rw [List.singleton_append, afterBalanced]
    split
    all_goals simp_all [uncounted]
  attributes n := by
    rw [List.foldl_cons, List.foldl_nil]
    unfold Lexeme.bracketsAfter
    split
    all_goals simp_all [uncounted]

theorem cons {t : Token} (ht : uncounted t.kind = true) (h : Neutral ts) : Neutral (t :: ts) :=
  (plain ht).append h

/-- The search goes in and comes out again. -/
theorem enclosed {opening closing : Token} (hpair : Brackets opening closing)
    (h : Neutral ts) : Neutral (opening :: (ts ++ [closing])) where
  brackets depth rest := by
    obtain ⟨hopening, -⟩ := hpair.afterBalanced (depth + 1) (ts ++ [closing] ++ rest)
    obtain ⟨-, hclosing, -⟩ := hpair.afterBalanced depth rest
    rw [List.cons_append, hopening, List.append_assoc, h.brackets]
    exact hclosing
  attributes n := by
    rw [List.foldl_cons, List.foldl_append, h.attributes, List.foldl_cons, List.foldl_nil]
    cases hpair <;> simp_all [Lexeme.bracketsAfter]

/-- The same with two things in the brackets. -/
theorem enclosedTwo {opening mark closing : Token} (hpair : Brackets opening closing)
    (hmark : uncounted mark.kind = true) (h : Neutral ts) (h' : Neutral us) :
    Neutral (opening :: (ts ++ mark :: (us ++ [closing]))) := by
  have hinside := (h.append (cons hmark h')).enclosed hpair
  rwa [List.append_assoc, List.cons_append] at hinside

theorem inAttribute {opening closing : Token} (hopening : opening.kind = .attrOpen)
    (hclosing : closing.kind = .attrClose) (h : Neutral ts) :
    Neutral (opening :: (ts ++ [closing])) where
  brackets depth rest := by
    have hpass {t : Token} (us : List Token) (ht : t.kind = .attrOpen ∨ t.kind = .attrClose) :
        afterBalanced (depth + 1) (t :: us) = afterBalanced (depth + 1) us := by
      rcases ht with ht | ht <;> simp [afterBalanced, ht]
    rw [List.cons_append, hpass _ (.inl hopening), List.append_assoc, h.brackets]
    exact hpass rest (.inr hclosing)
  attributes n := by
    rw [List.foldl_cons, List.foldl_append, h.attributes, hopening, List.foldl_cons, hclosing]
    rfl

/-- Brackets are passed over from outside, up to what comes behind them. -/
theorem afterBalanced {opening closing : Token} (hpair : Brackets opening closing)
    (h : Neutral ts) (rest : List Token) :
    afterBalanced 0 (opening :: (ts ++ [closing]) ++ rest) = some rest := by
  obtain ⟨hopening, -⟩ := hpair.afterBalanced 0 (ts ++ [closing] ++ rest)
  obtain ⟨-, -, hclosing⟩ := hpair.afterBalanced 0 rest
  rw [List.cons_append, hopening, List.append_assoc, h.brackets]
  exact hclosing

section Lists

variable {α : Type} {R : α → List Token → Prop} {as : List α}

theorem strung (h : Strung R as ts) (hR : ∀ a ts, R a ts → Neutral ts) : Neutral ts := by
  induction h with
  | nil => exact nil
  | cons ha _ ih => exact (hR _ _ ha).append ih

theorem following (h : Following R as ts) (hR : ∀ a ∈ as, ∀ ts, R a ts → Neutral ts) :
    Neutral ts := by
  induction h with
  | nil => exact nil
  | cons hcomma ha _ ih =>
    obtain ⟨hfirst, hrest⟩ := List.forall_mem_cons.mp hR
    exact cons (by rw [hcomma]; rfl) ((hfirst _ ha).append (ih hrest))

theorem separated (h : Separated R as ts) (hR : ∀ a ∈ as, ∀ ts, R a ts → Neutral ts) :
    Neutral ts := by
  cases h with
  | mk ha has =>
    obtain ⟨hfirst, hrest⟩ := List.forall_mem_cons.mp hR
    exact (hfirst _ ha).append (following has hrest)

theorem listed (h : Listed R as ts) (hR : ∀ a ∈ as, ∀ ts, R a ts → Neutral ts) : Neutral ts := by
  cases h with
  | none => exact nil
  | some has => exact separated has hR

theorem optionally {o : Option α} (h : Optionally R o ts) (hR : ∀ a ts, R a ts → Neutral ts) :
    Neutral ts := by
  cases h with
  | none => exact nil
  | some ha => exact hR _ _ ha

end Lists

end Neutral

section Grammar

variable {W : Writing} {ts : List Token}

theorem uncounted_of_isIdentifier {kind : Kind} (h : kind.isIdentifier = true) :
    uncounted kind = true := by
  cases kind <;> first | rfl | cases h

theorem neutral_identifier {i : Identifier} (h : i.Written W ts) : Neutral ts := by
  cases h with
  | mk hkind _ => exact .plain (uncounted_of_isIdentifier hkind)

theorem neutral_dotted {i : Identifier} (h : i.Dotted W ts) : Neutral ts := by
  cases h with
  | mk hdot hi => exact .cons (by rw [hdot]; rfl) (neutral_identifier hi)

theorem uncounted_of_isNumber {kind : Kind} (h : kind.IsNumber) : uncounted kind = true := by
  rcases h with rfl | rfl | rfl <;> rfl

theorem uncounted_unary (op : UnaryOp) : uncounted op.kind = true := by
  cases op <;> rfl

theorem uncounted_binary (op : BinaryOp) : uncounted op.kind = true := by
  cases op <;> rfl

mutual

/-- An expression closes all brackets that it opens. -/
theorem neutral_written : (e : Expr) → {ts : List Token} → e.Written W ts → Neutral ts
  | .identifier _, _, .identifier hi => neutral_identifier hi
  | .hierarchical _ _, _, .hierarchical hfirst hmore =>
    (neutral_identifier hfirst).append (.strung hmore fun _ _ => neutral_dotted)
  | .scoped _ _ _, _, .inScope houter hcolons hinner =>
    (neutral_identifier houter).append (.cons (by rw [hcolons]; rfl) (neutral_identifier hinner))
  | .literal _, _, .literal hkind _ => .plain (uncounted_of_isNumber hkind)
  | .realLiteral _, _, .realLiteral hkind _ => .plain (by rw [hkind]; rfl)
  | .stringLiteral _, _, .stringLiteral hkind _ => .plain (by rw [hkind]; rfl)
  | .index base place _, _, .index hbase hopening hplace hclosing =>
    (neutral_written base hbase).append
      (.enclosed (.square hopening hclosing) (neutral_written place hplace))
  | .rangeSelect base msb lsb _, _, .rangeSelect hbase hopening hmsb hcolon hlsb hclosing =>
    (neutral_written base hbase).append (.enclosedTwo (.square hopening hclosing)
      (by rw [hcolon]; rfl) (neutral_written msb hmsb) (neutral_written lsb hlsb))
  | .partSelect base place ascending width _, _,
      .partSelect hbase hopening hplace hmark hwidth hclosing =>
    (neutral_written base hbase).append (.enclosedTwo (.square hopening hclosing)
      (by rw [hmark]; cases ascending <;> rfl) (neutral_written place hplace)
      (neutral_written width hwidth))
  | .concat es _, _, .concat hopening hes hclosing =>
    .enclosed (.curly hopening hclosing) (.separated hes (neutral_members es))
  | .replicate count es _, _, .replicate hopening hcount hinner hes hclosing houter => by
    have hinside := (neutral_written count hcount).append
      (.enclosed (.curly hinner hclosing) (.separated hes (neutral_members es)))
    have hwhole := hinside.enclosed (.curly hopening houter)
    simpa only [List.append_assoc, List.cons_append, List.nil_append] using hwhole
  | .unary op operand _, _, .unary hkind hoperand =>
    .cons (by rw [hkind]; exact uncounted_unary op) (neutral_written operand hoperand)
  | .binary left op right _, _, .binary hleft hkind hright =>
    (neutral_written left hleft).append
      (.cons (by rw [hkind]; exact uncounted_binary op) (neutral_written right hright))
  | .ternary condition thenExpr elseExpr _, _, .ternary hcond hquestion hthen hcolon helse =>
    (neutral_written condition hcond).append (.cons (by rw [hquestion]; rfl)
      ((neutral_written thenExpr hthen).append
        (.cons (by rw [hcolon]; rfl) (neutral_written elseExpr helse))))
  | .call callee args _, _, .call hcallee hopening hargs hclosing =>
    (neutral_written callee hcallee).append
      (.enclosed (.paren hopening hclosing) (.listed hargs (neutral_members args)))
  | .systemCall _ _ _, _, .systemName hkind _ => .plain (by rw [hkind]; rfl)
  | .systemCall _ args _, _, .systemCall hkind _ hopening hargs hclosing =>
    .cons (by rw [hkind]; rfl)
      (.enclosed (.paren hopening hclosing) (.listed hargs (neutral_members args)))
  | .paren inner _, _, .paren hopening hinner hclosing =>
    .enclosed (.paren hopening hclosing) (neutral_written inner hinner)

theorem neutral_members : (es : List Expr) → ∀ e ∈ es, ∀ ts, e.Written W ts → Neutral ts
  | [] => List.forall_mem_nil _
  | e :: es => List.forall_mem_cons.mpr ⟨fun _ h => neutral_written e h, neutral_members es⟩

end

theorem neutral_sentence {e : Expr} (h : e.Sentence W ts) : Neutral ts := neutral_written e h.2

theorem neutral_range {r : Range} (h : r.Sentence W ts) : Neutral ts := by
  cases h with
  | mk hopening hmsb hcolon hlsb hclosing =>
    exact .enclosedTwo (.square hopening hclosing) (by rw [hcolon]; rfl) (neutral_sentence hmsb)
      (neutral_sentence hlsb)

theorem neutral_dataType {type : DataType} (h : type.Sentence W ts) : Neutral ts := by
  cases h with
  | mk hkind hsigning hpacked =>
    refine .cons (by rw [hkind]; rfl) (.append (.optionally hsigning fun _ _ h => ?_)
      (.strung hpacked fun _ _ => neutral_range))
    cases h with
    | mk hkind => exact .plain (by rw [hkind]; rfl)

theorem neutral_paramValue {value : ParamValue} (h : value.Sentence W ts) : Neutral ts := by
  cases h with
  | expr he => exact neutral_sentence he
  | dataType htype => exact neutral_dataType htype

theorem neutral_namedParam {param : NamedParam} (h : param.Sentence W ts) : Neutral ts := by
  cases h with
  | mk hdot hname hopening hvalue hclosing =>
    exact .cons (by rw [hdot]; rfl) ((neutral_identifier hname).append
      (.enclosed (.paren hopening hclosing) (.optionally hvalue fun _ _ => neutral_paramValue)))

theorem neutral_paramList {list : ParamList} (h : list.Sentence W ts) : Neutral ts := by
  cases h with
  | ordered hvalues => exact .separated hvalues fun _ _ _ => neutral_paramValue
  | named hitems => exact .separated hitems fun _ _ _ => neutral_namedParam

theorem neutral_dimension {dim : Dimension} (h : dim.Sentence W ts) : Neutral ts := by
  cases h with
  | range hr => exact neutral_range hr
  | size hopening he hclosing => exact .enclosed (.square hopening hclosing) (neutral_sentence he)

theorem neutral_attributeSpec {spec : AttributeSpec} (h : spec.Sentence W ts) : Neutral ts := by
  cases h with
  | bare hname _ => exact neutral_identifier hname
  | valued hname hequals _ he =>
    exact (neutral_identifier hname).append (.cons (by rw [hequals]; rfl) (neutral_sentence he))

theorem neutral_attribute {attr : Attribute} (h : attr.Sentence W ts) : Neutral ts := by
  cases h with
  | mk hopening hspecs hclosing =>
    exact .inAttribute hopening hclosing (.separated hspecs fun _ _ _ => neutral_attributeSpec)

theorem neutral_orderedPort {port : OrderedPort} (h : port.Sentence W ts) : Neutral ts := by
  cases h with
  | mk hattributes hexpr =>
    exact .append (.strung hattributes fun _ _ => neutral_attribute)
      (.optionally hexpr fun _ _ => neutral_sentence)

theorem neutral_portTarget {target : PortTarget} (h : target.Sentence W ts) : Neutral ts := by
  cases h with
  | wildcard hstar => exact .plain (by rw [hstar]; rfl)
  | bare hname => exact neutral_identifier hname
  | connected hname hopening hactual hclosing =>
    exact (neutral_identifier hname).append
      (.enclosed (.paren hopening hclosing) (.optionally hactual fun _ _ => neutral_sentence))

theorem neutral_namedPort {port : NamedPort} (h : port.Sentence W ts) : Neutral ts := by
  cases h with
  | mk hattributes hdot htarget =>
    exact .append (.strung hattributes fun _ _ => neutral_attribute)
      (.cons (by rw [hdot]; rfl) (neutral_portTarget htarget))

theorem neutral_portList {ports : PortList} (h : ports.Sentence W ts) : Neutral ts := by
  cases h with
  | empty => exact .nil
  | ordered hports _ => exact .separated hports fun _ _ _ => neutral_orderedPort
  | named hports => exact .separated hports fun _ _ _ => neutral_namedPort

theorem neutral_instance {inst : Instance} (h : inst.Sentence W ts) : Neutral ts := by
  cases h with
  | mk hname hopening hports hclosing =>
    cases hname with
    | mk hname hdims =>
      have hfront := (neutral_identifier hname).append (.strung hdims fun _ _ => neutral_dimension)
      exact hfront.append (.enclosed (.paren hopening hclosing) (neutral_portList hports))

theorem neutral_paramClause {clause : ParamClause} (h : clause.Sentence W ts) : Neutral ts := by
  cases h with
  | mk hhash hopening hlist hclosing =>
    exact .cons (by rw [hhash]; rfl) (.enclosed (.paren hopening hclosing)
      (.optionally hlist fun _ _ => neutral_paramList))

/-- A statement leaves nothing open. -/
theorem neutral_instantiation {stmt : Instantiation} (h : stmt.Sentence W ts) : Neutral ts := by
  cases h with
  | mk hmodule hparams hinstances hsemicolon =>
    refine (neutral_identifier hmodule).append
      (.append (.optionally hparams fun _ _ => neutral_paramClause) (.append ?_ (.plain ?_)))
    · exact .separated hinstances fun _ _ _ => neutral_instance
    · rw [hsemicolon]
      rfl

/-- No attribute is open behind a statement. -/
theorem openAttributes_instantiation {stmt : Instantiation} (h : stmt.Sentence W ts) :
    openAttributes ts = 0 :=
  (neutral_instantiation h).attributes 0

end Grammar

section Lookahead

variable {W : Writing} {ts : List Token}

/-- The search passes over all dimensions and finds the parenthesis behind them. -/
theorem opensPorts_dimensions {dims : List Dimension} (h : Strung (Dimension.Sentence W) dims ts)
    {opening : Token} (hopening : opening.kind = .leftParen) (rest : List Token) {bound : Nat}
    (hbound : ts.length ≤ bound) : opensPorts bound (ts ++ opening :: rest) = true := by
  induction h generalizing bound with
  | nil => cases bound <;> simp [opensPorts, headKind, hopening]
  | @cons dim dims us vs hdim _ ih =>
    have hbracketed : ∃ o inner c, us = o :: (inner ++ [c]) ∧ o.kind = .leftBracket ∧
        c.kind = .rightBracket ∧ Neutral inner := by
      cases hdim with
      | range hr =>
        cases hr with
        | @mk _ colon _ ms ls hopening hmsb hcolon hlsb hclosing =>
          have hbounds : Neutral (ms ++ colon :: ls) := (neutral_sentence hmsb).append
            (.cons (by rw [hcolon]; rfl) (neutral_sentence hlsb))
          exact ⟨_, _, _, by simp, hopening, hclosing, hbounds⟩
      | size hopening he hclosing => exact ⟨_, _, _, rfl, hopening, hclosing, neutral_sentence he⟩
    obtain ⟨o, inner, c, rfl, ho, hc, hinner⟩ := hbracketed
    have hpassed := hinner.afterBalanced (.square ho hc) (vs ++ opening :: rest)
    rw [List.length_append, List.length_cons] at hbound
    obtain ⟨bound, rfl⟩ : ∃ n, bound = n + 1 := ⟨bound - 1, by omega⟩
    have hhead : headKind (o :: (inner ++ [c]) ++ vs ++ opening :: rest) = .leftBracket := ho
    rw [opensPorts, if_pos hhead, List.append_assoc, hpassed]
    exact ih (by omega)

theorem namesInstance_instance {inst : Instance} (h : inst.Sentence W ts) (rest : List Token) :
    namesInstance (ts ++ rest) = true := by
  cases h with
  | @mk opening closing ns ps hname hopening hports hclosing =>
    cases hname with
    | @mk is ds hname hdims =>
      cases hname with
      | @mk t ht _ =>
        have htokens : [t] ++ ds ++ opening :: (ps ++ [closing]) ++ rest =
            t :: (ds ++ opening :: (ps ++ [closing] ++ rest)) := by simp
        have hopens : opensPorts (t :: (ds ++ opening :: (ps ++ [closing] ++ rest))).length
            (ds ++ opening :: (ps ++ [closing] ++ rest)) = true :=
          opensPorts_dimensions hdims hopening _ (by simp; omega)
        rw [htokens, namesInstance, headKind, ht, Bool.true_and, List.tail_cons]
        exact hopens

/-- The search for ports takes every statement for an instantiation, whatever stands behind it. -/
theorem continuesInstantiation_sentence {stmt : Instantiation} (h : stmt.Sentence W ts)
    (rest : List Token) : ∃ t us, ts = t :: us ∧ t.kind.isIdentifier = true ∧
      continuesInstantiation (us ++ rest) = true := by
  cases h with
  | @mk semicolon is ps vs hmodule hparams hinstances _ =>
    cases hmodule with
    | @mk t ht _ =>
      refine ⟨t, ps ++ (vs ++ [semicolon]), rfl, ht, ?_⟩
      have hnames (rest' : List Token) : namesInstance (vs ++ rest') = true := by
        generalize stmt.instances = instances at hinstances
        cases hinstances with
        | mk hinst _ =>
          rw [List.append_assoc]
          exact namesInstance_instance hinst _
      generalize stmt.params = params at hparams
      cases hparams with
      | none =>
        have hnamed := hnames ([semicolon] ++ rest)
        have hhash : headKind (vs ++ ([semicolon] ++ rest)) ≠ .hash := by
          intro hhash
          rw [namesInstance, hhash] at hnamed
          cases hnamed
        rw [List.nil_append, List.append_assoc, continuesInstantiation, if_neg hhash]
        exact hnamed
      | some hclause =>
        cases hclause with
        | @mk hash opening closing qs hhash hopening hlist hclosing =>
          have hinside : Neutral qs := .optionally hlist fun _ _ => neutral_paramList
          have hpassed := hinside.afterBalanced (.paren hopening hclosing)
            (vs ++ ([semicolon] ++ rest))
          have hhead : headKind (hash :: (opening :: (qs ++ [closing]) ++
              (vs ++ ([semicolon] ++ rest)))) = .hash := hhash
          have hparen : headKind (opening :: (qs ++ [closing]) ++ (vs ++ ([semicolon] ++ rest))) =
              .leftParen := hopening
          rw [List.append_assoc, List.append_assoc, List.cons_append, continuesInstantiation,
            if_pos hhead, List.tail_cons, if_pos hparen, hpassed]
          exact hnames _

end Lookahead

end Netlist.Parser
