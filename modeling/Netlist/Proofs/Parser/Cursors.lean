import Netlist.Parser.Item
import Netlist.Proofs.Syntax.Alike

/-!
Cursors that correspond: they stand at the same place of token lists of the same kinds and texts.
Everything a parser reads from a cursor then corresponds, and consuming tokens keeps it so.
-/
namespace Netlist

open List (Forall₂)
open Netlist.Parser (Cursor)

/-- Tokens have been consumed only if there is one consumed last. -/
def Parser.Cursor.Started (c : Cursor) : Prop := c.prev = none → c.consumed = 0

/-- A parse under way: it has asked for nothing that was not there. -/
structure Parser.Cursor.Ready (c : Cursor) : Prop where
  started : c.Started
  misuse : c.misuse = none

structure Frame.Tokens (F : Frame) (t t' : Token) : Prop where
  kind : t.kind = t'.kind
  text : t.text = t'.text
  span : F.span (t.span F.file) (t'.span F.file')
  leaf : F.leaf t.kind t.text (t.span F.file) (t'.span F.file')
  flaw : t.kind = .error → F.flaw (t.span F.file) (t'.span F.file')

structure Frame.Cursors (F : Frame) (c c' : Cursor) : Prop where
  file : c.file = F.file
  file' : c'.file = F.file'
  rest : Forall₂ F.Tokens c.rest c'.rest
  prev : Option.Rel F.Tokens c.prev c'.prev
  consumed : c'.consumed = c.consumed + F.ahead
  errors : c.errors = c'.errors
  faulty : c.errors ≠ F.errors → F.broken
  started : c.prev = none → c.consumed = 0
  abreast : c.consumed = 0 → F.ahead = 0
  /-- A parse that has nothing ahead and nothing behind it reports at the start of its file. -/
  origin : c.rest = [] → c.prev = none → F.span ⟨F.file, 0, 0⟩ ⟨F.file', 0, 0⟩
  misuse : c.misuse = none
  misuse' : c'.misuse = none

namespace Frame.Cursors

variable {F : Frame} {c c' : Cursor}

/-- A cursor corresponds to itself if the tokens ahead of it and behind it do. -/
theorem self (hc : c.Ready) (hfile : c.file = F.file) (hfile' : c.file = F.file')
    (hahead : F.ahead = 0) (hfaulty : c.errors ≠ F.errors → F.broken)
    (hrest : ∀ t ∈ c.rest, F.Tokens t t) (hprev : ∀ t ∈ c.prev, F.Tokens t t)
    (horigin : c.rest = [] → c.prev = none → F.span ⟨F.file, 0, 0⟩ ⟨F.file', 0, 0⟩) :
    F.Cursors c c where
  file := hfile
  file' := hfile'
  rest := List.forall₂_same.mpr hrest
  prev := by
    cases hlast : c.prev with
    | none => exact .none
    | some t => exact .some (hprev t hlast)
  consumed := by rw [hahead, Nat.add_zero]
  errors := rfl
  faulty := hfaulty
  started := hc.started
  abreast _ := hahead
  origin := horigin
  misuse := hc.misuse
  misuse' := hc.misuse

theorem kindAt (h : F.Cursors c c') (n : Nat) : c.kindAt n = c'.kindAt n := by
  have hrest := h.rest
  unfold Cursor.kindAt
  generalize c.rest = ts, c'.rest = ts' at hrest
  induction hrest generalizing n with
  | nil => rfl
  | cons ht hts ih =>
    cases n with
    | zero => exact ht.kind
    | succ n => exact ih n

theorem current (h : F.Cursors c c') : c.current = c'.current := h.kindAt 0

theorem currentText (h : F.Cursors c c') : c.currentText = c'.currentText := by
  have hrest := h.rest
  unfold Cursor.currentText
  generalize c.rest = ts, c'.rest = ts' at hrest
  cases hrest with
  | nil => rfl
  | cons ht hts => exact ht.text

theorem currentSpan (h : F.Cursors c c') : F.span c.currentSpan c'.currentSpan := by
  have hrest := h.rest
  have hprev := h.prev
  have horigin := h.origin
  unfold Cursor.currentSpan
  rw [h.file, h.file']
  generalize c.rest = ts, c'.rest = ts' at hrest horigin
  generalize c.prev = p, c'.prev = p' at hprev horigin
  cases hrest with
  | cons ht hts => exact ht.span
  | nil =>
    cases hprev with
    | some ht => exact ht.span
    | none => exact horigin rfl rfl

/-- The span of a token that is there covers just that token. -/
theorem leaf (h : F.Cursors c c') (hne : c.current ≠ .eof) :
    F.leaf c.current c.currentText c.currentSpan c'.currentSpan := by
  have hrest := h.rest
  revert hne
  unfold Cursor.current Cursor.kindAt Cursor.currentText Cursor.currentSpan
  rw [h.file, h.file']
  generalize c.rest = ts, c'.rest = ts' at hrest
  cases hrest with
  | nil => intro hne; exact absurd rfl hne
  | cons ht hts => intro _; exact ht.leaf

theorem flaw (h : F.Cursors c c') (herror : c.current = .error) :
    F.flaw c.currentSpan c'.currentSpan := by
  have hrest := h.rest
  revert herror
  unfold Cursor.current Cursor.kindAt Cursor.currentSpan
  rw [h.file, h.file']
  generalize c.rest = ts, c'.rest = ts' at hrest
  cases hrest with
  | nil => intro herror; cases herror
  | cons ht hts => exact ht.flaw

theorem prevToken (h : F.Cursors c c') :
    ∃ p p', c.prevToken = .ok p ∧ c'.prevToken = .ok p' ∧ Option.Rel F.Tokens p p' := by
  have hprev := h.prev
  have hstarted := h.started
  unfold Cursor.prevToken
  rw [h.consumed]
  by_cases hzero : c.consumed = 0
  · exact ⟨none, none, by simp [hzero], by simp [hzero, h.abreast hzero], .none⟩
  · generalize c.prev = p, c'.prev = p' at hprev hstarted
    cases hprev with
    | none => exact absurd (hstarted rfl) hzero
    | some ht => exact ⟨_, _, by simp [hzero], by simp [hzero], .some ht⟩

theorem prevSpan (h : F.Cursors c c') :
    ∃ s s', c.prevSpan = .ok s ∧ c'.prevSpan = .ok s' ∧ F.span s s' := by
  obtain ⟨p, p', hp, hp', hrel⟩ := h.prevToken
  unfold Cursor.prevSpan
  rw [hp, hp']
  cases hrel with
  | none => exact ⟨_, _, rfl, rfl, h.currentSpan⟩
  | some ht =>
    refine ⟨_, _, rfl, rfl, ?_⟩
    rw [h.file, h.file']
    exact ht.span

theorem prevKind (h : F.Cursors c c') :
    ∃ k, c.prevKind = .ok k ∧ c'.prevKind = .ok k := by
  obtain ⟨p, p', hp, hp', hrel⟩ := h.prevToken
  unfold Cursor.prevKind
  rw [hp, hp']
  cases hrel with
  | none => exact ⟨.eof, rfl, rfl⟩
  | @some t t' ht => exact ⟨t.kind, rfl, congrArg Except.ok ht.kind.symm⟩

theorem advance (h : F.Cursors c c') : F.Cursors c.advance c'.advance := by
  obtain ⟨file, prev, rest, consumed, errors, misuse⟩ := c
  obtain ⟨file', prev', rest', consumed', errors', misuse'⟩ := c'
  have hrest : Forall₂ F.Tokens rest rest' := h.rest
  cases hrest with
  | nil => exact h
  | @cons t t' ts ts' ht hts =>
    unfold Cursor.advance
    by_cases heof : t.kind = .eof
    · have heof' : t'.kind = .eof := ht.kind ▸ heof
      simpa only [heof, heof', if_true] using h
    · have heof' : ¬ t'.kind = .eof := ht.kind ▸ heof
      simp only [heof, heof', if_false]
      exact {
        file := h.file, file' := h.file', rest := hts, prev := .some ht
        consumed := (congrArg (· + 1) h.consumed).trans (Nat.add_right_comm _ _ _)
        errors := h.errors, faulty := h.faulty
        started := nofun, abreast := nofun, origin := nofun
        misuse := h.misuse, misuse' := h.misuse' }

private theorem takeWhile_tokens {p : Token → Bool} {ts ts' : List Token}
    (h : Forall₂ F.Tokens ts ts') (hp : ∀ t t', F.Tokens t t' → p t = p t') :
    Forall₂ F.Tokens (ts.takeWhile p) (ts'.takeWhile p) ∧
      Forall₂ F.Tokens (ts.dropWhile p) (ts'.dropWhile p) := by
  induction h with
  | nil => exact ⟨.nil, .nil⟩
  | @cons t t' ts ts' ht hts ih =>
    simp only [List.takeWhile_cons, List.dropWhile_cons, ← hp t t' ht]
    split
    · exact ⟨.cons ht ih.1, ih.2⟩
    · exact ⟨.nil, .cons ht hts⟩

theorem getLast?_tokens {ts ts' : List Token} (h : Forall₂ F.Tokens ts ts') :
    Option.Rel F.Tokens ts.getLast? ts'.getLast? := by
  induction h with
  | nil => exact .none
  | @cons t t' ts ts' ht hts ih =>
    cases hts with
    | nil => exact .some ht
    | cons hu hus => simpa only [List.getLast?_cons_cons] using ih

theorem skipUntil (h : F.Cursors c c') (stop : Kind → Bool) :
    F.Cursors (c.skipUntil stop) (c'.skipUntil stop) := by
  have hpasses : ∀ t t' : Token, F.Tokens t t' →
      (decide (t.kind ≠ .eof) && !stop t.kind) = (decide (t'.kind ≠ .eof) && !stop t'.kind) := by
    intro t t' ht
    rw [ht.kind]
  obtain ⟨htaken, hleft⟩ := takeWhile_tokens h.rest hpasses
  have hlast := getLast?_tokens htaken
  have hlength := htaken.length_eq
  refine {
    file := h.file, file' := h.file', rest := hleft, prev := ?_
    consumed := ?_, errors := h.errors, faulty := h.faulty, started := ?_, abreast := ?_
    origin := ?_, misuse := h.misuse, misuse' := h.misuse' }
  · have hprev := h.prev
    simp only [Cursor.skipUntil]
    generalize (c.rest.takeWhile _).getLast? = l, (c'.rest.takeWhile _).getLast? = l' at hlast
    cases hlast with
    | none => exact hprev
    | some ht => exact .some ht
  · simp only [Cursor.skipUntil]
    rw [h.consumed, hlength, Nat.add_right_comm]
  · intro hnone
    simp only [Cursor.skipUntil, Option.or_eq_none_iff, List.getLast?_eq_none_iff] at hnone ⊢
    rw [h.started hnone.2, hnone.1]
    rfl
  · intro hzero
    exact h.abreast (Nat.eq_zero_of_add_eq_zero_right hzero)
  · intro hnil hnone
    simp only [Cursor.skipUntil, Option.or_eq_none_iff, List.getLast?_eq_none_iff] at hnil hnone
    refine h.origin ?_ hnone.2
    rw [← List.takeWhile_append_dropWhile (p := fun t : Token => decide (t.kind ≠ .eof) &&
      !stop t.kind) (l := c.rest), hnone.1, hnil, List.append_nil]

theorem reported (h : F.Cursors c c') (hbroken : F.broken) :
    F.Cursors { c with errors := c.errors + 1 } { c' with errors := c'.errors + 1 } where
  file := h.file
  file' := h.file'
  rest := h.rest
  prev := h.prev
  consumed := h.consumed
  errors := congrArg (· + 1) h.errors
  faulty := fun _ => hbroken
  started := h.started
  abreast := h.abreast
  origin := h.origin
  misuse := h.misuse
  misuse' := h.misuse'

section Ahead

open Netlist.Parser (headKind afterBalanced opensPorts namesInstance continuesInstantiation)

variable {ts ts' : List Token}

theorem headKind_tokens (h : Forall₂ F.Tokens ts ts') : headKind ts = headKind ts' := by
  cases h with
  | nil => rfl
  | cons ht hts => exact ht.kind

private theorem tail_tokens (h : Forall₂ F.Tokens ts ts') : Forall₂ F.Tokens ts.tail ts'.tail := by
  cases h with
  | nil => exact .nil
  | cons ht hts => exact hts

private theorem afterBalanced_tokens (h : Forall₂ F.Tokens ts ts') (depth : Nat) :
    Option.Rel (Forall₂ F.Tokens) (afterBalanced depth ts) (afterBalanced depth ts') := by
  induction h generalizing depth with
  | nil => exact .none
  | @cons t t' ts ts' ht hts ih =>
    unfold afterBalanced
    rw [← ht.kind]
    split <;> try exact ih _
    all_goals try split
    all_goals first | exact .some hts | exact ih _ | exact .none

private theorem opensPorts_tokens (h : Forall₂ F.Tokens ts ts') (bound : Nat) :
    opensPorts bound ts = opensPorts bound ts' := by
  induction bound generalizing ts ts' with
  | zero => simp only [opensPorts, headKind_tokens h]
  | succ bound ih =>
    have hafter := afterBalanced_tokens h 0
    unfold opensPorts
    rw [headKind_tokens h]
    generalize afterBalanced 0 ts = a, afterBalanced 0 ts' = a' at hafter
    cases hafter with
    | none => rfl
    | some hrest => simp only [ih hrest]

private theorem namesInstance_tokens (h : Forall₂ F.Tokens ts ts') :
    namesInstance ts = namesInstance ts' := by
  unfold namesInstance
  rw [headKind_tokens h, h.length_eq, opensPorts_tokens (tail_tokens h)]

theorem continuesInstantiation_tokens (h : Forall₂ F.Tokens ts ts') :
    continuesInstantiation ts = continuesInstantiation ts' := by
  have hafter := afterBalanced_tokens (tail_tokens h) 0
  unfold Parser.continuesInstantiation
  rw [headKind_tokens h, headKind_tokens (tail_tokens h), namesInstance_tokens h]
  generalize afterBalanced 0 ts.tail = a, afterBalanced 0 ts'.tail = a' at hafter
  cases hafter with
  | none => rfl
  | some hts => simp only [namesInstance_tokens hts]

theorem continuesInstantiation (h : F.Cursors c c') :
    continuesInstantiation c.rest.tail = continuesInstantiation c'.rest.tail :=
  continuesInstantiation_tokens (tail_tokens h.rest)

theorem startsOtherItem (h : F.Cursors c c') : c.startsOtherItem = c'.startsOtherItem := by
  unfold Cursor.startsOtherItem
  rw [h.current, h.kindAt 1, h.currentText]

end Ahead

end Frame.Cursors

end Netlist
