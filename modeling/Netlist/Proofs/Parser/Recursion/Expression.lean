import Netlist.Proofs.Parser.Blind.Expression
import Netlist.Proofs.Parser.Recursion

/-!
The recursions of the parser of expressions. An operand begins a nested expression behind a token of
its own only, and so does every operator that extends an expression; hence both the loop over the
operators and the nesting of expressions in one another come to an end.
-/
namespace Netlist.Parser

open Syntax

variable {c : Cursor} {n : Nat}

section Parts

variable {expr expr' : Nat → ParserM Expr}

section Lists

variable (hexpr : ∀ least, Agree n (expr least) (expr' least))

include hexpr

theorem agree_expressionList : Agree n (expressionList expr) (expressionList expr') :=
  (hexpr 0).bind fun _ => (hexpr 0).moreItems.bind fun _ => .refl _

theorem agree_callArguments : Agree n (callArguments expr) (callArguments expr') :=
  .next _ fun _ => ((agree_expressionList hexpr).unlessAt .rightParen).bind fun _ => .refl _

end Lists

variable (hc : c.Started) (hexpr : ∀ least, Agree c.rest.length (expr least) (expr' least))

include hc hexpr

theorem same_braces (hkind : c.current = .leftBrace) : Same c (braces expr) (braces expr') := by
  have heats : Eats c.rest (expect .leftBrace) :=
    .expect ((current_of_rest rfl).symm.trans hkind) (by decide)
  refine .seen (fun _ => .currentSpan) ?_
  refine .eats hc heats fun _ => .next _ fun found => ?_
  split
  · exact .refl _
  · refine (hexpr 0).bind fun first => .next _ fun found => ?_
    split
    · exact (agree_expressionList hexpr).bind fun _ => .refl _
    · exact (hexpr 0).moreItems.bind fun _ => .refl _

theorem same_nameOrCall (hname : c.current.isIdentifier = true) :
    Same c (nameOrCall expr) (nameOrCall expr') := by
  have heats : Eats c.rest scopedName := eats_scopedName (by rwa [current_of_rest rfl] at hname)
  refine .seen (fun _ => .currentSpan) ?_
  refine .eats hc heats fun name => .next _ fun found => ?_
  split
  · exact (agree_callArguments hexpr).bind fun _ => .refl _
  · exact .refl _

theorem same_systemCall (hkind : c.current = .systemIdentifier) :
    Same c (systemCall expr c) (systemCall expr' c) := by
  have hhead : headKind c.rest = .systemIdentifier := (current_of_rest rfl).symm.trans hkind
  have heats : Eats c.rest (nameAt c) := .nameAt (current_of_rest rfl) (by rw [hhead]; nofun)
  refine .eats hc heats fun name => ?_
  exact ((agree_callArguments hexpr).whenAt .leftParen).bind fun _ => .refl _

theorem same_operand : Same c (operand expr) (operand expr') := by
  refine .seen (fun _ => .look) ?_
  split
  next op hop =>
    exact .take hc rfl (ne_eof_of_unaryOp? hop) ((hexpr _).bind fun _ => .refl _)
  next =>
    split
    · exact .refl _
    · exact .refl _
    · exact .refl _
    · exact .refl _
    · exact .refl _
    · exact .refl _
    · next hkind => exact .take hc hkind (by decide) ((hexpr 0).bind fun _ => .refl _)
    · next hkind => exact same_braces hc hexpr hkind
    · next hkind => exact same_systemCall hc hexpr hkind
    · next hkind => exact same_nameOrCall hc hexpr (by rw [hkind]; rfl)
    · next hkind => exact same_nameOrCall hc hexpr (by rw [hkind]; rfl)
    · exact .refl _

theorem same_selectOf (hkind : c.current = .leftBracket) (base : Expr) :
    Same c (selectOf expr base) (selectOf expr' base) := by
  have heats : Eats c.rest (expect .leftBracket) :=
    .expect ((current_of_rest rfl).symm.trans hkind) (by decide)
  refine .eats hc heats fun _ => (hexpr 0).bind fun first => .next _ fun kind => ?_
  split
  · exact .next _ fun _ => (hexpr 0).bind fun _ => .refl _
  · exact .next _ fun _ => (hexpr 0).bind fun _ => .refl _
  · exact .next _ fun _ => (hexpr 0).bind fun _ => .refl _
  · exact .refl _

end Parts

/-- What binds to an expression at least as tightly as `least`, one operator after another. -/
def extension (expr : Nat → ParserM Expr) (least : Nat) : Recursion Expr Expr where
  step next left := do
    match ← current with
    | .question =>
      if least = 0 then
        take .question
        let thenExpr ← expr 0
        expect .colon
        let elseExpr ← expr 0
        let span ← merge left.span elseExpr.span
        next (.ternary left thenExpr elseExpr span)
      else
        return left
    | .leftBracket => next (← selectOf expr left)
    | .dot => next (← memberOf left)
    | kind =>
      match kind.binaryOp? with
      | none => return left
      | some op =>
        if op.leftPower < least then
          return left
        else
          take kind
          let right ← expr op.rightPower
          let span ← merge left.span right.span
          next (.binary left op right span)
  parser left := do extend expr least (← remaining) left

section Extension

variable {expr expr' : Nat → ParserM Expr} {next next' : Expr → ParserM Expr} {least : Nat}

/-- Every operator is a token of its own. -/
theorem same_extension (hc : c.Started)
    (hexpr : ∀ least, Agree c.rest.length (expr least) (expr' least))
    (hnext : ∀ left, Agree c.rest.length (next left) (next' left)) (left : Expr) :
    Same c ((extension expr least).step next left) ((extension expr' least).step next' left) := by
  refine .seen (fun _ => .current) ?_
  split
  next hkind =>
    split
    · refine .take hc hkind (by decide) ((hexpr 0).bind fun _ => .next _ fun _ => ?_)
      exact (hexpr 0).bind fun _ => .next _ fun _ => hnext _
    · exact .refl _
  next hkind =>
    have heats : Eats c.rest (selectOf expr left) :=
      (Eats.expect ((current_of_rest rfl).symm.trans hkind) (by decide)).bind
    have hselect := same_selectOf hc hexpr hkind left
    refine (Same.eats hc heats hnext).trans ?_
    exact hselect.bind fun _ _ _ _ => .refl _
  next hkind =>
    have heats : Eats c.rest (memberOf left) :=
      eats_memberOf ((current_of_rest rfl).symm.trans hkind) left
    exact .eats hc heats hnext
  next =>
    split
    next => exact .refl _
    next op hop =>
      split
      · exact .refl _
      · refine .take hc rfl (ne_eof_of_binaryOp? hop) ((hexpr _).bind fun _ => .next _ fun _ => ?_)
        exact hnext _

theorem founded_extension : (extension expr least).Founded :=
  fun _ hc _ _ hnext left => same_extension hc (fun _ => .refl _) hnext left

/-- Nothing extends an expression at the end. -/
theorem counts_extension : (extension expr least).Counts (extend expr least) where
  zero c hc hnil next left := by
    have hend : c.current = .eof := current_of_rest hnil
    have hstops : Same c ((extension expr least).step next left) (return left) := by
      refine Same.trans (.seen (g := fun _ => return left) (fun _ => .current) ?_) fun _ => rfl
      rw [hend]
      exact .refl _
    exact hstops.symm
  succ _ _ _ _ _ := .refl _

theorem same_extend (hc : c.Started)
    (hexpr : ∀ least, Agree c.rest.length (expr least) (expr' least)) (bound : Nat) (left : Expr) :
    Same c (extend expr least bound left) (extend expr' least bound left) := by
  induction bound generalizing c left with
  | zero => exact .refl _
  | succ bound ih =>
    refine same_extension hc hexpr (fun left d hd hless => ?_) left
    exact ih hd (fun least => (hexpr least).mono (Nat.le_of_lt hless)) left

theorem ends_extension : (extension expr least).Ends :=
  founded_extension.ends counts_extension fun _ => rfl

end Extension

/-- Expressions whose operators have at least the power asked for, nested in one another. -/
def nesting : Recursion Nat Expr where
  step next least := do
    let left ← operand next
    (extension next least).parser left
  parser least := do expressionWithin ((← remaining) + 1) least

theorem founded_nesting : nesting.Founded := by
  intro c hc next next' hnext least
  refine (same_operand hc hnext).bind fun left d _ hpasses => .seen (fun _ => .remaining) ?_
  have hd := hpasses.started hc
  exact same_extend hd (fun least => (hnext least).mono hpasses.length_le) _ left

/-- An operand that is missing at the end is all there is to a level of nesting. -/
theorem counts_nesting : nesting.Counts fun bound least => expressionWithin (bound + 1) least where
  zero c hc hnil next least := by
    have hexpr (least : Nat) : Agree c.rest.length (expressionWithin 0 least) (next least) := by
      rw [hnil]
      exact fun _ _ hless => absurd hless (Nat.not_lt_zero _)
    refine (same_operand hc hexpr).bind fun left d _ hpasses => ?_
    have hnil' : d.rest.length ≤ 0 := by
      have hle := hpasses.length_le
      rwa [hnil] at hle
    intro s
    rw [extension, run_bind Reads.remaining.run, Nat.le_zero.mp hnil']
    rfl
  succ c hc bound hbound least := by
    refine Same.bind (.refl _) fun left d _ hpasses s => ?_
    rw [extension, run_bind Reads.remaining.run]
    exact founded_extension.within_alike counts_extension (hpasses.started hc)
      (hpasses.length_le.trans hbound) (Nat.le_refl _) left s

theorem ends_nesting : nesting.Ends := founded_nesting.ends counts_nesting fun _ => rfl

example : nesting.parser 0 = expression := rfl

end Netlist.Parser
