import Netlist.Proofs.Design.Literal
import Netlist.Proofs.Session.Growth

/-!
Expressions that can be read from their texts. Their names are plain and known, their literals can
be read again, and the forms that have no operator stand where source text has them: members behind
a name, ranges in a select, a scope before a name. Lowering gives only such expressions.
-/
namespace Netlist.Design

/-- The index of a name that needs no escape. -/
inductive IsName (names : Names) : Nat → Prop
  | mk {text : String} {i : Nat} : Piece.NameText text.toList → names.find? text = some i →
      IsName names i

/-- The index of a name of the system. -/
inductive IsSystemName (names : Names) : Nat → Prop
  | mk {text : String} {i : Nat} : Piece.SystemText text.toList → names.find? text = some i →
      IsSystemName names i

namespace Expr

mutual

/-- The literals of an expression, from left to right. -/
def literals : Expr → List Literal
  | .id _ => []
  | .literal value => [value]
  | .all => []
  | .null => []
  | .unary _ operand => literals operand
  | .binary _ left right => literals left ++ literals right
  | .ternary cond ifTrue ifFalse => literals cond ++ (literals ifTrue ++ literals ifFalse)
  | .call callee args => literals callee ++ literalsOf args
  | .concat elements => literalsOf elements
  | .replicate count elements => literals count ++ literalsOf elements

def literalsOf : List Expr → List Literal
  | [] => []
  | e :: es => literals e ++ literalsOf es

end

/-- Its reals end with a digit, and its strings have only characters that are kept. -/
def IsPortable (e : Expr) : Prop := ∀ l ∈ e.literals, l.isPortable = true

section Portable

variable {joint : Joint} {op : UnaryOp} {a b c : Expr} {es : List Expr}

theorem literalsOf_eq (es : List Expr) : literalsOf es = es.flatMap literals := by
  induction es with
  | nil => rfl
  | cons e es ih => rw [literalsOf, ih, List.flatMap_cons]

private theorem forall_mem_literalsOf :
    (∀ l ∈ literalsOf es, l.isPortable = true) ↔ ∀ e ∈ es, e.IsPortable := by
  simp only [literalsOf_eq, List.mem_flatMap, IsPortable]
  exact ⟨fun h e he l hl => h l ⟨e, he, hl⟩, fun h l ⟨e, he, hl⟩ => h e he l hl⟩

theorem isPortable_unary : (unary op a).IsPortable ↔ a.IsPortable := by
  rw [IsPortable, literals, IsPortable]

theorem isPortable_binary : (binary joint a b).IsPortable ↔ a.IsPortable ∧ b.IsPortable := by
  rw [IsPortable, literals, List.forall_mem_append, IsPortable, IsPortable]

theorem isPortable_ternary :
    (ternary a b c).IsPortable ↔ a.IsPortable ∧ b.IsPortable ∧ c.IsPortable := by
  rw [IsPortable, literals, List.forall_mem_append, List.forall_mem_append, IsPortable, IsPortable,
    IsPortable]

theorem isPortable_call : (call a es).IsPortable ↔ a.IsPortable ∧ ∀ e ∈ es, e.IsPortable := by
  rw [IsPortable, literals, List.forall_mem_append, forall_mem_literalsOf, IsPortable]

theorem isPortable_concat : (concat es).IsPortable ↔ ∀ e ∈ es, e.IsPortable := by
  rw [IsPortable, literals, forall_mem_literalsOf]

theorem isPortable_replicate :
    (replicate a es).IsPortable ↔ a.IsPortable ∧ ∀ e ∈ es, e.IsPortable := by
  rw [IsPortable, literals, List.forall_mem_append, forall_mem_literalsOf, IsPortable]

end Portable

/-- The members named in order, beginning with one of `base`. -/
def dotted (base : Expr) (more : List Nat) : Expr :=
  more.foldl (fun e i => .binary .dot e (.id i)) base

variable (names : Names)

/-- What can be called. -/
inductive IsCallee : Expr → Prop
  | name {i : Nat} : IsName names i → IsCallee (.id i)
  | inScope {i j : Nat} : IsName names i → IsName names j →
      IsCallee (.binary .scope (.id i) (.id j))
  | system {i : Nat} : IsSystemName names i → IsCallee (.id i)

/-- Expressions that can be read from their texts. -/
inductive Readable : Expr → Prop
  | name {i : Nat} : IsName names i → Readable (.id i)
  | dotted {i : Nat} {more : List Nat} : IsName names i → more ≠ [] →
      (∀ j ∈ more, IsName names j) → Readable (.dotted (.id i) more)
  | inScope {i j : Nat} : IsName names i → IsName names j →
      Readable (.binary .scope (.id i) (.id j))
  | literal {l : Literal} : l.Readable → Readable (.literal l)
  | index {base place : Expr} : Readable base → Readable place → Readable (.index base place)
  | range {base msb lsb : Expr} : Readable base → Readable msb → Readable lsb →
      Readable (.index base (.downto msb lsb))
  | part {base place width : Expr} {ascending : Bool} : Readable base → Readable place →
      Readable width →
      Readable (.index base
        (.binary (if ascending then .partSelectUp else .partSelectDown) place width))
  | unary {op : UnaryOp} {operand : Expr} : Readable operand → Readable (.unary op operand)
  | operator {op : BinaryOp} {left right : Expr} : Readable left → Readable right →
      Readable (.binary (.operator op) left right)
  | ternary {cond ifTrue ifFalse : Expr} : Readable cond → Readable ifTrue → Readable ifFalse →
      Readable (.ternary cond ifTrue ifFalse)
  | call {callee : Expr} {args : List Expr} : IsCallee names callee →
      (∀ e ∈ args, Readable e) → Readable (.call callee args)
  | concat {elements : List Expr} : elements ≠ [] → (∀ e ∈ elements, Readable e) →
      Readable (.concat elements)
  | replicate {count : Expr} {elements : List Expr} : Readable count → elements ≠ [] →
      (∀ e ∈ elements, Readable e) → Readable (.replicate count elements)

end Expr

end Netlist.Design
