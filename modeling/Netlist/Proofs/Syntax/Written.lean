import Netlist.Token.Basic
import Netlist.Proofs.Syntax.Alike

/-!
The grammar of expressions, as a relation between trees and the tokens they are written with. A tree
does not keep the texts of its names and literals, so what ties them to tokens is given beside it.
The relation alone allows any grouping of operators; a tree is grouped if it follows the powers of
its operators. Trees are the same if they differ only in spans and in the indices of their names.
-/
namespace Netlist

section Lists

variable {α : Type}

/-- Any number of things, one behind the other. -/
inductive Strung (R : α → List Token → Prop) : List α → List Token → Prop
  | nil : Strung R [] []
  | cons {a : α} {as : List α} {ts us : List Token} : R a ts → Strung R as us →
      Strung R (a :: as) (ts ++ us)

/-- Any number of things, each behind a comma. -/
inductive Following (R : α → List Token → Prop) : List α → List Token → Prop
  | nil : Following R [] []
  | cons {a : α} {as : List α} {comma : Token} {ts us : List Token} : comma.kind = .comma →
      R a ts → Following R as us → Following R (a :: as) (comma :: (ts ++ us))

/-- One or more things between commas. -/
inductive Separated (R : α → List Token → Prop) : List α → List Token → Prop
  | mk {a : α} {as : List α} {ts us : List Token} : R a ts → Following R as us →
      Separated R (a :: as) (ts ++ us)

/-- Nothing, or one thing. -/
inductive Optionally (R : α → List Token → Prop) : Option α → List Token → Prop
  | none : Optionally R none []
  | some {a : α} {ts : List Token} : R a ts → Optionally R (some a) ts

/-- Nothing, or things between commas. -/
inductive Listed (R : α → List Token → Prop) : List α → List Token → Prop
  | none : Listed R [] []
  | some {as : List α} {ts : List Token} : Separated R as ts → Listed R as ts

variable {R S : α → List Token → Prop} {as bs : List α} {ts us : List Token}

theorem Strung.append (h : Strung R as ts) (h' : Strung R bs us) :
    Strung R (as ++ bs) (ts ++ us) := by
  induction h with
  | nil => exact h'
  | cons ha _ ih =>
    rw [List.append_assoc]
    exact .cons ha ih

theorem Strung.mono (h : Strung R as ts) (himp : ∀ a ts, R a ts → S a ts) : Strung S as ts := by
  induction h with
  | nil => exact .nil
  | cons ha _ ih => exact .cons (himp _ _ ha) ih

theorem Following.mono (h : Following R as ts) (himp : ∀ a ts, R a ts → S a ts) :
    Following S as ts := by
  induction h with
  | nil => exact .nil
  | cons hcomma ha _ ih => exact .cons hcomma (himp _ _ ha) ih

theorem Following.forall_mem {p : α → Prop} (h : Following R as ts)
    (himp : ∀ a ts, R a ts → p a) : ∀ a ∈ as, p a := by
  induction h with
  | nil => exact List.forall_mem_nil _
  | cons _ ha _ ih => exact List.forall_mem_cons.mpr ⟨himp _ _ ha, ih⟩

/-- Things of another kind, written with the same tokens. -/
theorem Following.of_forall₂ {β : Type} {R' : β → List Token → Prop} {rel : α → β → Prop}
    {bs : List β} (h : Following R as ts) (hrel : List.Forall₂ rel as bs)
    (himp : ∀ a b ts, R a ts → rel a b → R' b ts) : Following R' bs ts := by
  induction h generalizing bs with
  | nil =>
    cases hrel
    exact .nil
  | cons hcomma ha _ ih =>
    cases hrel with
    | cons hab hrel => exact .cons hcomma (himp _ _ _ ha hab) (ih hrel)

theorem Separated.mono (h : Separated R as ts) (himp : ∀ a ts, R a ts → S a ts) :
    Separated S as ts := by
  cases h with
  | mk ha has => exact .mk (himp _ _ ha) (has.mono himp)

theorem Separated.forall_mem {p : α → Prop} (h : Separated R as ts)
    (himp : ∀ a ts, R a ts → p a) : ∀ a ∈ as, p a := by
  cases h with
  | mk ha has => exact List.forall_mem_cons.mpr ⟨himp _ _ ha, has.forall_mem himp⟩

theorem Separated.ne_nil (h : Separated R as ts) : as ≠ [] := by
  cases h with
  | mk _ _ => exact List.cons_ne_nil _ _

theorem Listed.mono (h : Listed R as ts) (himp : ∀ a ts, R a ts → S a ts) : Listed S as ts := by
  cases h with
  | none => exact .none
  | some has => exact .some (has.mono himp)

theorem Listed.forall_mem {p : α → Prop} (h : Listed R as ts) (himp : ∀ a ts, R a ts → p a) :
    ∀ a ∈ as, p a := by
  cases h with
  | none => exact List.forall_mem_nil _
  | some has => exact has.forall_mem himp

section Tokens

variable {p : Token → Prop}

theorem Strung.restrict (h : Strung R as ts) (hts : ∀ t ∈ ts, p t) :
    Strung (fun a us => R a us ∧ ∀ t ∈ us, p t) as ts := by
  induction h with
  | nil => exact .nil
  | cons ha _ ih =>
    obtain ⟨hus, hvs⟩ := List.forall_mem_append.mp hts
    exact .cons ⟨ha, hus⟩ (ih hvs)

theorem Following.forall_mem_tokens (h : Following R as ts) (hts : ∀ t ∈ ts, p t) :
    ∀ a ∈ as, ∃ us, R a us ∧ ∀ t ∈ us, p t := by
  induction h with
  | nil => exact List.forall_mem_nil _
  | cons _ ha _ ih =>
    obtain ⟨-, hts⟩ := List.forall_mem_cons.mp hts
    obtain ⟨hus, hvs⟩ := List.forall_mem_append.mp hts
    exact List.forall_mem_cons.mpr ⟨⟨_, ha, hus⟩, ih hvs⟩

theorem Separated.forall_mem_tokens (h : Separated R as ts) (hts : ∀ t ∈ ts, p t) :
    ∀ a ∈ as, ∃ us, R a us ∧ ∀ t ∈ us, p t := by
  cases h with
  | mk ha has =>
    obtain ⟨hus, hvs⟩ := List.forall_mem_append.mp hts
    exact List.forall_mem_cons.mpr ⟨⟨_, ha, hus⟩, has.forall_mem_tokens hvs⟩

theorem Listed.forall_mem_tokens (h : Listed R as ts) (hts : ∀ t ∈ ts, p t) :
    ∀ a ∈ as, ∃ us, R a us ∧ ∀ t ∈ us, p t := by
  cases h with
  | none => exact List.forall_mem_nil _
  | some has => exact has.forall_mem_tokens hts

end Tokens

end Lists

namespace Syntax

/-- What ties the leaves of trees to tokens. -/
structure Writing where
  /-- The names that a text is written for. -/
  name : Nat → String → Prop
  /-- The spans of literals that a token is written for. -/
  leaf : Span → Token → Prop

variable (W : Writing)

/-- The token of a name. -/
inductive Identifier.Written : Identifier → List Token → Prop
  | mk {i : Identifier} {t : Token} : t.kind.isIdentifier = true → W.name i.name t.text →
      Written i [t]

/-- The tokens of a name behind a dot. -/
inductive Identifier.Dotted : Identifier → List Token → Prop
  | mk {i : Identifier} {dot : Token} {ts : List Token} : dot.kind = .dot → i.Written W ts →
      Dotted i (dot :: ts)

/-- The tokens of an expression, from left to right. -/
inductive Expr.Written : Expr → List Token → Prop
  | identifier {i : Identifier} {ts : List Token} : i.Written W ts → Written (.identifier i) ts
  | hierarchical {first : Identifier} {more : List Identifier} {span : Span}
      {ts us : List Token} : first.Written W ts →
      Strung (Identifier.Dotted W) more us →
      Written (.hierarchical (first :: more) span) (ts ++ us)
  | inScope {scope name : Identifier} {span : Span} {colons : Token} {ts us : List Token} :
      scope.Written W ts → colons.kind = .colonColon → name.Written W us →
      Written (.scoped scope name span) (ts ++ colons :: us)
  | literal {span : Span} {t : Token} : t.kind.IsNumber → W.leaf span t →
      Written (.literal span) [t]
  | realLiteral {span : Span} {t : Token} : t.kind = .realLiteral → W.leaf span t →
      Written (.realLiteral span) [t]
  | stringLiteral {span : Span} {t : Token} : t.kind = .stringLiteral → W.leaf span t →
      Written (.stringLiteral span) [t]
  | index {base place : Expr} {span : Span} {opening closing : Token} {bs ps : List Token} :
      Written base bs → opening.kind = .leftBracket → Written place ps →
      closing.kind = .rightBracket →
      Written (.index base place span) (bs ++ opening :: (ps ++ [closing]))
  | rangeSelect {base msb lsb : Expr} {span : Span} {opening colon closing : Token}
      {bs ms ls : List Token} : Written base bs → opening.kind = .leftBracket → Written msb ms →
      colon.kind = .colon → Written lsb ls → closing.kind = .rightBracket →
      Written (.rangeSelect base msb lsb span)
        (bs ++ opening :: (ms ++ colon :: (ls ++ [closing])))
  | partSelect {base place width : Expr} {ascending : Bool} {span : Span}
      {opening mark closing : Token} {bs ps ws : List Token} : Written base bs →
      opening.kind = .leftBracket → Written place ps →
      mark.kind = (if ascending then .plusColon else .minusColon) → Written width ws →
      closing.kind = .rightBracket →
      Written (.partSelect base place ascending width span)
        (bs ++ opening :: (ps ++ mark :: (ws ++ [closing])))
  | concat {elements : List Expr} {span : Span} {opening closing : Token} {ts : List Token} :
      opening.kind = .leftBrace → Separated Written elements ts → closing.kind = .rightBrace →
      Written (.concat elements span) (opening :: (ts ++ [closing]))
  | replicate {count : Expr} {elements : List Expr} {span : Span}
      {opening inner closing outer : Token} {ns ts : List Token} : opening.kind = .leftBrace →
      Written count ns → inner.kind = .leftBrace → Separated Written elements ts →
      closing.kind = .rightBrace → outer.kind = .rightBrace →
      Written (.replicate count elements span)
        (opening :: (ns ++ inner :: (ts ++ [closing, outer])))
  | unary {op : UnaryOp} {operand : Expr} {span : Span} {t : Token} {ts : List Token} :
      t.kind = op.kind → Written operand ts → Written (.unary op operand span) (t :: ts)
  | binary {left right : Expr} {op : BinaryOp} {span : Span} {t : Token} {ls rs : List Token} :
      Written left ls → t.kind = op.kind → Written right rs →
      Written (.binary left op right span) (ls ++ t :: rs)
  | ternary {condition thenExpr elseExpr : Expr} {span : Span} {question colon : Token}
      {cs ts es : List Token} : Written condition cs → question.kind = .question →
      Written thenExpr ts → colon.kind = .colon → Written elseExpr es →
      Written (.ternary condition thenExpr elseExpr span) (cs ++ question :: (ts ++ colon :: es))
  | call {callee : Expr} {args : List Expr} {span : Span} {opening closing : Token}
      {fs ts : List Token} : Written callee fs → opening.kind = .leftParen →
      Listed Written args ts → closing.kind = .rightParen →
      Written (.call callee args span) (fs ++ opening :: (ts ++ [closing]))
  /-- A system function without arguments needs no parentheses. -/
  | systemName {name : Identifier} {span : Span} {t : Token} : t.kind = .systemIdentifier →
      W.name name.name t.text → Written (.systemCall name [] span) [t]
  | systemCall {name : Identifier} {args : List Expr} {span : Span} {t opening closing : Token}
      {ts : List Token} : t.kind = .systemIdentifier → W.name name.name t.text →
      opening.kind = .leftParen → Listed Written args ts → closing.kind = .rightParen →
      Written (.systemCall name args span) (t :: opening :: (ts ++ [closing]))
  | paren {inner : Expr} {span : Span} {opening closing : Token} {ts : List Token} :
      opening.kind = .leftParen → Written inner ts → closing.kind = .rightParen →
      Written (.paren inner span) (opening :: (ts ++ [closing]))

/-- The kinds of the tokens that expressions begin with. -/
def startsExpression : Kind → Bool
  | .intLiteral | .sizedLiteral | .fillLiteral | .realLiteral | .stringLiteral => true
  | .leftParen | .leftBrace => true
  | .identifier | .escapedIdentifier | .systemIdentifier => true
  | kind => kind.unaryOp?.isSome

namespace Identifier.Written

variable {W} {i : Identifier} {ts : List Token}

theorem exists_head (h : i.Written W ts) :
    ∃ t ts', ts = t :: ts' ∧ t.kind.isIdentifier = true := by
  cases h with
  | mk hkind _ => exact ⟨_, _, rfl, hkind⟩

end Identifier.Written

theorem startsExpression_of_isIdentifier {kind : Kind} (h : kind.isIdentifier = true) :
    startsExpression kind = true := by
  cases kind <;> first | rfl | cases h

theorem startsExpression_unary (op : UnaryOp) : startsExpression op.kind = true := by
  cases op <;> rfl

theorem startsExpression_number {kind : Kind} (h : kind.IsNumber) :
    startsExpression kind = true := by
  rcases h with rfl | rfl | rfl <;> rfl

theorem Expr.Written.exists_head {W : Writing} : {e : Expr} → {ts : List Token} →
    e.Written W ts → ∃ t ts', ts = t :: ts' ∧ startsExpression t.kind = true
  | .identifier _, _, .identifier hi => by
    obtain ⟨t, ts, rfl, ht⟩ := hi.exists_head
    exact ⟨t, ts, rfl, startsExpression_of_isIdentifier ht⟩
  | .hierarchical _ _, _, .hierarchical hi _ => by
    obtain ⟨t, ts, rfl, ht⟩ := hi.exists_head
    exact ⟨t, _, rfl, startsExpression_of_isIdentifier ht⟩
  | .scoped _ _ _, _, .inScope hi _ _ => by
    obtain ⟨t, ts, rfl, ht⟩ := hi.exists_head
    exact ⟨t, _, rfl, startsExpression_of_isIdentifier ht⟩
  | .literal _, _, .literal ht _ => ⟨_, _, rfl, startsExpression_number ht⟩
  | .realLiteral _, _, .realLiteral ht _ => ⟨_, _, rfl, by rw [ht]; rfl⟩
  | .stringLiteral _, _, .stringLiteral ht _ => ⟨_, _, rfl, by rw [ht]; rfl⟩
  | .index _ _ _, _, .index hbase _ _ _ => by
    obtain ⟨t, ts, rfl, ht⟩ := hbase.exists_head
    exact ⟨t, _, rfl, ht⟩
  | .rangeSelect _ _ _ _, _, .rangeSelect hbase _ _ _ _ _ => by
    obtain ⟨t, ts, rfl, ht⟩ := hbase.exists_head
    exact ⟨t, _, rfl, ht⟩
  | .partSelect _ _ _ _ _, _, .partSelect hbase _ _ _ _ _ => by
    obtain ⟨t, ts, rfl, ht⟩ := hbase.exists_head
    exact ⟨t, _, rfl, ht⟩
  | .concat _ _, _, .concat ht _ _ => ⟨_, _, rfl, by rw [ht]; rfl⟩
  | .replicate _ _ _, _, .replicate ht _ _ _ _ _ => ⟨_, _, rfl, by rw [ht]; rfl⟩
  | .unary op _ _, _, .unary ht _ => ⟨_, _, rfl, by rw [ht]; exact startsExpression_unary op⟩
  | .binary _ _ _ _, _, .binary hleft _ _ => by
    obtain ⟨t, ts, rfl, ht⟩ := hleft.exists_head
    exact ⟨t, _, rfl, ht⟩
  | .ternary _ _ _ _, _, .ternary hcond _ _ _ _ => by
    obtain ⟨t, ts, rfl, ht⟩ := hcond.exists_head
    exact ⟨t, _, rfl, ht⟩
  | .call _ _ _, _, .call hcallee _ _ _ => by
    obtain ⟨t, ts, rfl, ht⟩ := hcallee.exists_head
    exact ⟨t, _, rfl, ht⟩
  | .systemCall _ _ _, _, .systemName ht _ => ⟨_, _, rfl, by rw [ht]; rfl⟩
  | .systemCall _ _ _, _, .systemCall ht _ _ _ _ => ⟨_, _, rfl, by rw [ht]; rfl⟩
  | .paren _ _, _, .paren ht _ _ => ⟨_, _, rfl, by rw [ht]; rfl⟩

namespace Expr

def isUnary : Expr → Bool
  | .unary _ _ _ => true
  | _ => false

def isTernary : Expr → Bool
  | .ternary _ _ _ _ => true
  | _ => false

/-- The operator between the operands of an expression that has two. -/
def operator? : Expr → Option BinaryOp
  | .binary _ op _ _ => some op
  | _ => none

/-- What a name that is called can be. -/
def isName : Expr → Bool
  | .identifier _ => true
  | .scoped _ _ _ => true
  | _ => false

/-- Whether a select can have this base: operators bind less tightly. -/
structure IsBase (e : Expr) : Prop where
  unary : e.isUnary = false
  operator : e.operator? = none
  ternary : e.isTernary = false

/-- Trees without nodes for broken source whose operators are grouped by their powers. -/
inductive Grouped : Expr → Prop
  | identifier {i : Identifier} : Grouped (.identifier i)
  | hierarchical {parts : List Identifier} {span : Span} : 2 ≤ parts.length →
      Grouped (.hierarchical parts span)
  | inScope {scope name : Identifier} {span : Span} : Grouped (.scoped scope name span)
  | literal {span : Span} : Grouped (.literal span)
  | realLiteral {span : Span} : Grouped (.realLiteral span)
  | stringLiteral {span : Span} : Grouped (.stringLiteral span)
  | index {base place : Expr} {span : Span} : base.IsBase → Grouped base → Grouped place →
      Grouped (.index base place span)
  | rangeSelect {base msb lsb : Expr} {span : Span} : base.IsBase → Grouped base → Grouped msb →
      Grouped lsb → Grouped (.rangeSelect base msb lsb span)
  | partSelect {base place width : Expr} {ascending : Bool} {span : Span} : base.IsBase →
      Grouped base → Grouped place → Grouped width →
      Grouped (.partSelect base place ascending width span)
  | concat {elements : List Expr} {span : Span} : elements ≠ [] →
      (∀ e ∈ elements, Grouped e) → Grouped (.concat elements span)
  | replicate {count : Expr} {elements : List Expr} {span : Span} : Grouped count →
      elements ≠ [] → (∀ e ∈ elements, Grouped e) → Grouped (.replicate count elements span)
  | unary {op : UnaryOp} {operand : Expr} {span : Span} : operand.operator? = none →
      operand.isTernary = false → Grouped operand → Grouped (.unary op operand span)
  | binary {left right : Expr} {op : BinaryOp} {span : Span} : left.isTernary = false →
      right.isTernary = false →
      (∀ inner, left.operator? = some inner → op.leftPower < inner.rightPower) →
      (∀ inner, right.operator? = some inner → op.rightPower ≤ inner.leftPower) →
      Grouped left → Grouped right → Grouped (.binary left op right span)
  | ternary {condition thenExpr elseExpr : Expr} {span : Span} : condition.isTernary = false →
      Grouped condition → Grouped thenExpr → Grouped elseExpr →
      Grouped (.ternary condition thenExpr elseExpr span)
  | call {callee : Expr} {args : List Expr} {span : Span} : callee.isName = true →
      (∀ e ∈ args, Grouped e) → Grouped (.call callee args span)
  | systemCall {name : Identifier} {args : List Expr} {span : Span} :
      (∀ e ∈ args, Grouped e) → Grouped (.systemCall name args span)
  | paren {inner : Expr} {span : Span} : Grouped inner → Grouped (.paren inner span)

/-- A grouped tree and its tokens. -/
def Sentence (W : Writing) (e : Expr) (ts : List Token) : Prop := e.Grouped ∧ e.Written W ts

section Same

open List (Forall₂)

variable (N : Nat → Nat → Prop) (L : Span → Span → Prop)

/-- Trees of one shape, whose names are related by `N` and whose literals have spans related by `L`.
Other spans are of no account. -/
inductive Same : Expr → Expr → Prop
  | identifier {i i' : Identifier} : N i.name i'.name → Same (.identifier i) (.identifier i')
  | hierarchical {parts parts' : List Identifier} {s s' : Span} :
      Forall₂ (fun i i' : Identifier => N i.name i'.name) parts parts' →
      Same (.hierarchical parts s) (.hierarchical parts' s')
  | inScope {a a' b b' : Identifier} {s s' : Span} : N a.name a'.name → N b.name b'.name →
      Same (.scoped a b s) (.scoped a' b' s')
  | literal {s s' : Span} : L s s' → Same (.literal s) (.literal s')
  | realLiteral {s s' : Span} : L s s' → Same (.realLiteral s) (.realLiteral s')
  | stringLiteral {s s' : Span} : L s s' → Same (.stringLiteral s) (.stringLiteral s')
  | index {a a' b b' : Expr} {s s' : Span} : Same a a' → Same b b' →
      Same (.index a b s) (.index a' b' s')
  | rangeSelect {a a' b b' c c' : Expr} {s s' : Span} : Same a a' → Same b b' → Same c c' →
      Same (.rangeSelect a b c s) (.rangeSelect a' b' c' s')
  | partSelect {a a' b b' c c' : Expr} {ascending : Bool} {s s' : Span} : Same a a' →
      Same b b' → Same c c' →
      Same (.partSelect a b ascending c s) (.partSelect a' b' ascending c' s')
  | concat {es es' : List Expr} {s s' : Span} : Forall₂ Same es es' →
      Same (.concat es s) (.concat es' s')
  | replicate {n n' : Expr} {es es' : List Expr} {s s' : Span} : Same n n' →
      Forall₂ Same es es' → Same (.replicate n es s) (.replicate n' es' s')
  | unary {op : UnaryOp} {a a' : Expr} {s s' : Span} : Same a a' →
      Same (.unary op a s) (.unary op a' s')
  | binary {op : BinaryOp} {a a' b b' : Expr} {s s' : Span} : Same a a' → Same b b' →
      Same (.binary a op b s) (.binary a' op b' s')
  | ternary {a a' b b' c c' : Expr} {s s' : Span} : Same a a' → Same b b' → Same c c' →
      Same (.ternary a b c s) (.ternary a' b' c' s')
  | call {f f' : Expr} {es es' : List Expr} {s s' : Span} : Same f f' → Forall₂ Same es es' →
      Same (.call f es s) (.call f' es' s')
  | systemCall {i i' : Identifier} {es es' : List Expr} {s s' : Span} : N i.name i'.name →
      Forall₂ Same es es' → Same (.systemCall i es s) (.systemCall i' es' s')
  | paren {a a' : Expr} {s s' : Span} : Same a a' → Same (.paren a s) (.paren a' s')

end Same

end Expr

end Syntax

end Netlist
