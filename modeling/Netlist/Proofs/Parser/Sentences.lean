import Netlist.Proofs.Parser.Accepts.Expression
import Netlist.Proofs.Parser.Ensures.Expression

/-!
Expressions in a stream of tokens. Between grouped trees and the tokens they are written with, the
parser goes one way and the grammar the other: the tokens of a grouped tree are parsed to that tree,
and whatever is parsed without an error is a grouped tree of the tokens consumed.
-/
namespace Netlist.Parser

open Syntax

variable {α : Type}

/-- Each error that a parser counts is one that it emits. -/
theorem errors_task (x : ParserM α) (c : Cursor) (s : Session) :
    ((x.task c).run s).1.2.errors = c.errors + ((x.task c).emitted s).length := by
  induction x generalizing c s with
  | done a => rfl
  | call op =>
    cases op with
    | look => rfl
    | eat kind =>
      show (if c.current = kind then (true, c.advance) else (false, c)).2.errors = c.errors
      split
      · unfold Cursor.advance
        split
        · rfl
        · split <;> rfl
      · rfl
    | skipUntil stop => rfl
    | report e span => rfl
    | intern text => rfl
    | misuse m => rfl
  | chain first next ihFirst ihNext =>
    rcases hfirst : (ParserM.task first c).run s with ⟨⟨a, c'⟩, t⟩
    have herrors := ihFirst c s
    rw [hfirst] at herrors
    have hrun := run_bind (f := next) hfirst
    have hemitted := emitted_bind (f := next) hfirst
    change (ParserM.task (.chain first next) c).run s = _ at hrun
    change (ParserM.task (.chain first next) c).emitted s = _ at hemitted
    rw [hrun, hemitted, ihNext, herrors, List.length_append, Nat.add_assoc]

/-- The position in a stream behind the tokens `before`, with `rest` ahead. -/
def Cursor.between (file : Nat) (before rest : List Token) : Cursor where
  file := file
  prev := before.getLast?
  rest := rest
  consumed := before.length

/-- Every place in a list of tokens is one where a parse can stand. -/
theorem Cursor.ready_between (file : Nat) (before rest : List Token) :
    (Cursor.between file before rest).Ready where
  started hnone := by
    rw [Cursor.between, List.getLast?_eq_none_iff.mp hnone]
    rfl
  misuse := rfl

/-- Parsers that mirror themselves ask for nothing that is not there. -/
theorem misuse_between {x : ParserM α} {Q : α → α → Prop} {file : Nat}
    (hx : Mirror (Frame.ofFile file) Q x x) (before rest : List Token) (s : Session) :
    ((x.task (.between file before rest)).run s).1.2.misuse = none := by
  have hsame (t : Token) : (Frame.ofFile file).Tokens t t :=
    ⟨rfl, rfl, ⟨rfl, rfl⟩, trivial, fun _ => trivial⟩
  have hc : (Frame.ofFile file).Cursors (.between file before rest) (.between file before rest) :=
    .self (Cursor.ready_between file before rest) rfl rfl rfl (fun _ => trivial)
      (fun t _ => hsame t) (fun t _ => hsame t) fun _ _ => ⟨rfl, rfl⟩
  have hpaired := hx.paired (serves_ofFile file) hc
  exact (hpaired.run (holds_free s _ s _)).1.2.misuse

/-- A parser that reports nothing moves on in the stream. -/
theorem between_of_run {x : ParserM α} {Q : α → α → Prop} {file : Nat} {before after : List Token}
    {s s' : Session} {a : α} {c' : Cursor} (hx : Mirror (Frame.ofFile file) Q x x)
    (hrun : (x.task (.between file before after)).run s = ((a, c'), s'))
    (hquiet : (x.task (.between file before after)).emitted s = []) :
    ∃ taken rest, after = taken ++ rest ∧ c' = .between file (before ++ taken) rest := by
  obtain ⟨taken, hpasses⟩ := Cursor.Passes.exists_run x (.between file before after) s
  have herrors := errors_task x (.between file before after) s
  have hmisuse := misuse_between hx before after s
  rw [hrun] at hpasses herrors hmisuse
  rw [hquiet] at herrors
  refine ⟨taken, c'.rest, hpasses.rest, ?_⟩
  have hprev := hpasses.prev
  have hconsumed := hpasses.consumed
  cases c' with
  | mk file' prev' rest' consumed' errors' misuse' =>
    simp only [Cursor.between, Cursor.mk.injEq, List.getLast?_append, List.length_append]
    exact ⟨hpasses.file, hprev, trivial, hconsumed, herrors, hmisuse⟩

/-- What a parser accepts, it takes wherever it stands. -/
theorem Accepts.between {x : ParserM α} {Q : α → α → Prop} {P : Names → α → Prop} {file : Nat}
    {ts rest : List Token} (h : Accepts file x ts rest P) (hx : Mirror (Frame.ofFile file) Q x x)
    (before : List Token) (s : Session) :
    ∃ a s', (x.task (.between file before (ts ++ rest))).run s =
        ((a, .between file (before ++ ts) rest), s') ∧
      (x.task (.between file before (ts ++ rest))).emitted s = [] ∧
      s.names.Extends s'.names ∧ P s'.names a := by
  obtain ⟨a, c', s', hreads, ha⟩ := h (.between file before (ts ++ rest)) s rfl rfl
  obtain ⟨taken, rest', htaken, rfl⟩ := between_of_run hx hreads.run hreads.quiet
  obtain rfl : rest = rest' := List.append_cancel_left hreads.rest
  obtain rfl : ts = taken := List.append_cancel_right htaken
  exact ⟨a, s', hreads.run, hreads.quiet, hreads.names_extends, ha s'.names (.refl _)⟩

theorem mem_followers {kind : Kind} (h : kind = .eof ∨ endsExpression kind = true) :
    kind ∈ followers := by
  rcases h with rfl | h
  · decide
  · unfold endsExpression at h
    split at h <;> first | decide | cases h

/-- The tokens of a grouped tree are parsed to that tree, wherever they stand before the end or
before a token that closes or separates. Names are compared by their texts; a literal gets the place
of its token, and the other spans are of no account. -/
theorem expression_of_written {file : Nat} {names : Names} {leaf : Span → Token → Prop} {e : Expr}
    {ts rest : List Token} (before : List Token) (s : Session) (hgrouped : e.Grouped)
    (hwritten : e.Written ⟨fun i text => names.resolve? i = some text, leaf⟩ ts)
    (hrest : headKind rest = .eof ∨ endsExpression (headKind rest) = true) :
    ∃ e' s',
      (expression.task (.between file before (ts ++ rest))).run s =
        ((e', .between file (before ++ ts) rest), s') ∧
      (expression.task (.between file before (ts ++ rest))).emitted s = [] ∧
      e.Same (fun i j => ∃ text, names.resolve? i = some text ∧ s'.names.find? text = some j)
        (fun span span' => ∃ t, leaf span t ∧ span' = t.span file) e' := by
  have haccepts : Accepts file expression ts rest _ :=
    accepts_expression hgrouped hwritten (mem_followers hrest)
  obtain ⟨e', s', hrun, hquiet, -, hsame⟩ := haccepts.between mirror_expression before s
  exact ⟨e', s', hrun, hquiet, hsame⟩

/-- The tokens of `a**a**a)` up to the parenthesis. -/
def powerTokens : List Token :=
  [⟨.identifier, "a", 0, 1⟩, ⟨.doubleStar, "**", 1, 3⟩, ⟨.identifier, "a", 3, 4⟩,
   ⟨.doubleStar, "**", 4, 6⟩, ⟨.identifier, "a", 6, 7⟩]

/-- Powers group to the right. -/
def powerTree : Expr :=
  .binary (.identifier ⟨0, ⟨0, 0, 0⟩⟩) .pow
    (.binary (.identifier ⟨0, ⟨0, 0, 0⟩⟩) .pow (.identifier ⟨0, ⟨0, 0, 0⟩⟩) ⟨0, 0, 0⟩) ⟨0, 0, 0⟩

theorem grouped_powerTree : powerTree.Grouped :=
  .binary rfl rfl nofun (fun _ h => by cases h; decide) .identifier
    (.binary rfl rfl nofun nofun .identifier .identifier)

theorem written_powerTree : powerTree.Written
    ⟨fun i text => (Names.mk #["a"]).resolve? i = some text, fun _ _ => False⟩ powerTokens :=
  .binary (.identifier (.mk rfl rfl)) rfl
    (.binary (.identifier (.mk rfl rfl)) rfl (.identifier (.mk rfl rfl)))

theorem expression_of_written_power :
    ∃ e' s',
      (expression.task (.between 0 [] (powerTokens ++ [⟨.rightParen, ")", 7, 8⟩]))).run {} =
        ((e', .between 0 powerTokens [⟨.rightParen, ")", 7, 8⟩]), s') ∧
      (expression.task (.between 0 [] (powerTokens ++ [⟨.rightParen, ")", 7, 8⟩]))).emitted {} = [] ∧
      powerTree.Same
        (fun i j => ∃ text, (Names.mk #["a"]).resolve? i = some text ∧
          s'.names.find? text = some j)
        (fun _ span' => ∃ t : Token, False ∧ span' = t.span 0) e' :=
  expression_of_written [] {} grouped_powerTree written_powerTree (.inr rfl)

/-- What is parsed without an error is a grouped tree, written with just the tokens consumed, as long
as none of them is a broken lexeme. -/
theorem expression_grouped {file : Nat} {before after : List Token} {s s' : Session} {e : Expr}
    {c' : Cursor} (hrun : (expression.task (.between file before after)).run s = ((e, c'), s'))
    (hquiet : (expression.task (.between file before after)).emitted s = []) :
    ∃ taken rest, after = taken ++ rest ∧ c' = .between file (before ++ taken) rest ∧
      ((∀ t ∈ taken, t.kind ≠ .error) →
        e.Grouped ∧ e.Written (.ofNames s'.names file) taken) := by
  obtain ⟨taken, rest, hafter, hc'⟩ := between_of_run mirror_expression hrun hquiet
  refine ⟨taken, rest, hafter, hc', fun hclean => ?_⟩
  subst hc'
  exact ensures_expression _ s taken e _ s' rfl rfl ⟨hrun, hquiet, hafter, hclean⟩ (.refl _)

/-- The tokens of `-1`. -/
def minusTokens : List Token := [⟨.minus, "-", 0, 1⟩, ⟨.intLiteral, "1", 1, 2⟩]

theorem expression_grouped_minus :
    (expression.task (.between 0 [] minusTokens)).emitted {} = [] ∧
      ∃ e c' s', (expression.task (.between 0 [] minusTokens)).run {} = ((e, c'), s') ∧
        ∃ taken rest, minusTokens = taken ++ rest ∧ c' = .between 0 ([] ++ taken) rest ∧
          ((∀ t ∈ taken, t.kind ≠ .error) →
            e.Grouped ∧ e.Written (.ofNames s'.names 0) taken) :=
  ⟨rfl, _, _, _, rfl, expression_grouped rfl rfl⟩

end Netlist.Parser
