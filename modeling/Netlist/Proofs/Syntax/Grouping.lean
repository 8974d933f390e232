import Netlist.Proofs.Syntax.Written

/-!
How powers group operators. A parser that seeks an expression with a least power stops before a token
that binds less; an expression that was found that way fits the power. What an expression was closed
by tells how its last operand was sought. These facts tie the two views of a grouped tree: from the
outside, by its operators, and from left to right, by the tokens that end its parts.
-/
namespace Netlist

variable {k : Kind} {least : Nat} {op inner : BinaryOp}

theorem BinaryOp.leftPower_lt (op : BinaryOp) : op.leftPower < UnaryOp.power := by
  cases op <;> decide

theorem BinaryOp.rightPower_ne_zero (op : BinaryOp) : op.rightPower ≠ 0 := by
  cases op <;> decide

/-- An operand that an operator leaves to the one on its right stays there for a looser one. -/
theorem BinaryOp.lt_rightPower (h : inner.leftPower < op.leftPower) :
    inner.leftPower < op.rightPower := by
  by_cases hop : op = .pow
  · subst hop
    revert h
    cases inner <;> decide
  · simp only [leftPower, rightPower, if_neg hop] at h ⊢
    omega

theorem BinaryOp.le_leftPower (h : op.leftPower < inner.rightPower) :
    op.leftPower ≤ inner.leftPower := by
  by_cases hinner : inner = .pow
  · subst hinner
    exact Nat.le_of_lt (Nat.lt_trans h (by decide))
  · have hright : inner.rightPower = inner.leftPower + 1 := by
      simp only [leftPower, rightPower, if_neg hinner]
    omega

namespace Syntax

/-- A token of this kind ends an expression that is sought with the power `least`. -/
structure Stops (least : Nat) (k : Kind) : Prop where
  bracket : k ≠ .leftBracket
  dot : k ≠ .dot
  question : k = .question → least ≠ 0
  operator : ∀ op, k.binaryOp? = some op → op.leftPower < least

theorem Stops.of_operator (h : op.leftPower < least) : Stops least op.kind where
  bracket hk := by cases op <;> cases hk
  dot hk := by cases op <;> cases hk
  question hk := by cases op <;> cases hk
  operator inner hinner := by
    rw [Kind.binaryOp?_kind] at hinner
    cases hinner
    exact h

theorem stops_unary (hbracket : k ≠ .leftBracket) (hdot : k ≠ .dot) : Stops UnaryOp.power k where
  bracket := hbracket
  dot := hdot
  question _ := by decide
  operator op _ := op.leftPower_lt

theorem stops_question (h : least ≠ 0) : Stops least .question where
  bracket := by decide
  dot := by decide
  question _ := h
  operator op hop := absurd hop (by cases op <;> decide)

namespace Expr

variable {e : Expr}

/-- An expression that can be found with the power `least`. -/
structure Fits (least : Nat) (e : Expr) : Prop where
  ternary : e.isTernary = true → least = 0
  operator : ∀ op, e.operator? = some op → least ≤ op.leftPower

/-- The power with which the last operand of an expression is sought. -/
def lastPower? : Expr → Option Nat
  | .unary _ _ _ => some UnaryOp.power
  | .binary _ op _ _ => some op.rightPower
  | .ternary _ _ _ _ => some 0
  | _ => none

/-- A token of this kind does not belong to the last operand. -/
def Closed (e : Expr) (k : Kind) : Prop := ∀ p, e.lastPower? = some p → Stops p k

theorem isBase_iff : e.IsBase ↔ e.lastPower? = none := by
  constructor
  · rintro ⟨hunary, hoperator, hternary⟩
    cases e with
    | unary o a s => cases hunary
    | binary l o r s => cases hoperator
    | ternary c t f s => cases hternary
    | _ => rfl
  · intro h
    cases e with
    | unary o a s => cases h
    | binary l o r s => cases h
    | ternary c t f s => cases h
    | _ => exact ⟨rfl, rfl, rfl⟩

theorem IsBase.of_isName : {e : Expr} → e.isName = true → e.IsBase
  | .identifier _, _ => ⟨rfl, rfl, rfl⟩
  | .scoped _ _ _, _ => ⟨rfl, rfl, rfl⟩

theorem IsBase.fits (h : e.IsBase) : e.Fits least where
  ternary hternary := by rw [h.ternary] at hternary; cases hternary
  operator op hop := by rw [h.operator] at hop; cases hop

theorem IsBase.closed (h : e.IsBase) : e.Closed k := by
  intro p hp
  rw [isBase_iff.mp h] at hp
  cases hp

theorem Closed.isBase (h : e.Closed .leftBracket) : e.IsBase := by
  rw [isBase_iff, Option.eq_none_iff_forall_not_mem]
  exact fun p hp => (h p hp).bracket rfl

theorem Closed.isTernary (h : e.Closed k) (hk : ¬ Stops 0 k) : e.isTernary = false := by
  cases e with
  | ternary c t f s => exact absurd (h 0 rfl) hk
  | _ => rfl

theorem Closed.operator (h : e.Closed op.kind) (hinner : e.operator? = some inner) :
    op.leftPower < inner.rightPower := by
  cases e with
  | binary l o r s =>
    cases hinner
    exact (h _ rfl).operator op (Kind.binaryOp?_kind op)
  | _ => cases hinner

theorem not_stops_operator : ¬ Stops 0 op.kind :=
  fun h => Nat.not_lt_zero _ (h.operator op (Kind.binaryOp?_kind op))

theorem not_stops_question : ¬ Stops 0 .question := fun h => h.question rfl rfl

/-- What stops a search stops the last operand of what was found. -/
theorem Fits.closed (h : e.Fits least) (hk : Stops least k) : e.Closed k := by
  intro p hp
  cases e with
  | unary o a s =>
    cases hp
    exact stops_unary hk.bracket hk.dot
  | binary l op r s =>
    cases hp
    refine ⟨hk.bracket, hk.dot, fun _ => op.rightPower_ne_zero, fun inner hinner => ?_⟩
    exact BinaryOp.lt_rightPower (Nat.lt_of_lt_of_le (hk.operator inner hinner) (h.operator op rfl))
  | ternary c t f s =>
    cases hp
    rwa [h.ternary rfl] at hk
  | _ => cases hp

theorem fits_zero : e.Fits 0 := ⟨fun _ => rfl, fun _ _ => Nat.zero_le _⟩

theorem fits_operand (hoperator : e.operator? = none) (hternary : e.isTernary = false) :
    e.Fits least where
  ternary h := by rw [hternary] at h; cases h
  operator op hop := by rw [hoperator] at hop; cases hop

theorem Fits.operator_eq_none (h : e.Fits UnaryOp.power) : e.operator? = none := by
  rw [Option.eq_none_iff_forall_not_mem]
  exact fun op hop => absurd (h.operator op hop) (Nat.not_le.mpr op.leftPower_lt)

theorem Fits.isTernary_eq_false (h : e.Fits least) (hleast : least ≠ 0) : e.isTernary = false := by
  cases htern : e.isTernary with
  | false => rfl
  | true => exact absurd (h.ternary htern) hleast

/-- The left operand of a grouped tree, seen as the beginning of the whole. -/
theorem fits_left (hop : least ≤ op.leftPower) (hternary : e.isTernary = false)
    (hinner : ∀ inner, e.operator? = some inner → op.leftPower < inner.rightPower) :
    e.Fits least where
  ternary h := by rw [hternary] at h; cases h
  operator inner h := Nat.le_trans hop (BinaryOp.le_leftPower (hinner inner h))

theorem closed_left (hternary : e.isTernary = false)
    (hinner : ∀ inner, e.operator? = some inner → op.leftPower < inner.rightPower) :
    e.Closed op.kind := by
  intro p hp
  cases e with
  | unary o a s =>
    cases hp
    exact .of_operator op.leftPower_lt
  | binary l o r s =>
    cases hp
    exact .of_operator (hinner o rfl)
  | ternary c t f s => cases hternary
  | _ => cases hp

theorem closed_condition (hternary : e.isTernary = false) : e.Closed .question := by
  intro p hp
  cases e with
  | unary o a s =>
    cases hp
    exact stops_question (by decide)
  | binary l o r s =>
    cases hp
    exact stops_question o.rightPower_ne_zero
  | ternary c t f s => cases hternary
  | _ => cases hp

end Expr

end Syntax

end Netlist
