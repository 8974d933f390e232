import Netlist.Proofs.Parser.Mirror.Unit
import Netlist.Proofs.Token.Lexing
import Mathlib.Data.List.Nodup
import Mathlib.Data.List.TakeWhile

/-!
Where the words that open units go. A parser consumes a stretch of the tokens ahead, and every such
word in it has either been kept, as the opening of a unit, or been reported as no expression: the
parser of expressions consumes whatever stands where an operand should be. No other parser of a part
of a unit consumes one.
-/
namespace Netlist

/-- Parses of one file, of which nothing is asked but that they open no unit. -/
def Frame.ofFile (file : Nat) : Frame where
  file := file
  file' := file
  name _ _ _ := True
  span s s' := s.file = file ∧ s'.file = file
  leaf _ _ _ _ := True
  broken := True
  flaw _ _ := True
  opens := False
  span_file h := h
  span_cover ha _ := ha
  span_atStart h := h
  flaw_of_broken _ := trivial

/-- Nothing is asked of the sessions either. -/
def Pairing.free : Pairing where
  name _ _ _ := True
  known _ _ := False
  diag _ _ := True
  broken := True

namespace Parser

theorem serves_ofFile (file : Nat) : Serves (Frame.ofFile file) Pairing.free where
  name _ _ _ _ := trivial
  broken _ := trivial
  diag _ _ _ _ := trivial

theorem holds_free (s t s' t' : Session) : Pairing.free.Holds s t s' t' where
  name _ _ _ _ _ := trivial
  known := nofun
  broken _ := trivial

/-- Whether a token was reported as no expression. -/
def isReported (file : Nat) (ds : List Diagnostic) (t : Token) : Bool :=
  ds.any fun d => d.code = SyntaxError.code &&
    d.message = SyntaxError.expectedExpression.message && d.span = t.span file

theorem isReported_append (file : Nat) (ds es : List Diagnostic) (t : Token) :
    isReported file (ds ++ es) t = (isReported file ds t || isReported file es t) :=
  List.any_append

private theorem comma_mem_append {a b : String} (h : ',' ∈ a.toList ∨ ',' ∈ b.toList) :
    ',' ∈ (a ++ b).toList := by
  rwa [String.toList_append, List.mem_append]

/-- No other error has the message of a missing expression. -/
theorem eq_of_message {e : SyntaxError} (h : e.message = SyntaxError.expectedExpression.message) :
    e = .expectedExpression := by
  have hcomma : ',' ∉ SyntaxError.expectedExpression.message.toList := by decide
  rw [← h] at hcomma
  cases e with
  | expectedExpression => rfl
  | expected kind found =>
    have hmem : ',' ∈ ("expected " ++ kind.name ++ ", found ").toList :=
      comma_mem_append (.inr (by decide))
    exact absurd (comma_mem_append (.inl hmem)) hcomma
  | expectedName found => exact absurd (comma_mem_append (.inl (by decide))) hcomma
  | expectedSemicolon found => exact absurd (comma_mem_append (.inl (by decide))) hcomma
  | expectedPorts found => exact absurd (comma_mem_append (.inl (by decide))) hcomma
  | _ => exact absurd h (by decide)

theorem isReported_diagnostic {file : Nat} {e : SyntaxError} {s : Span} {t : Token} :
    isReported file [e.diagnostic s] t = true ↔ e = .expectedExpression ∧ s = t.span file := by
  simp only [isReported, List.any_cons, List.any_nil, Bool.or_false, Bool.and_eq_true,
    decide_eq_true_eq, SyntaxError.diagnostic, true_and]
  exact ⟨fun h => ⟨eq_of_message h.1, h.2⟩, fun h => ⟨h.1 ▸ rfl, h.2⟩⟩

/-- A cursor somewhere in a stream, not behind its end. -/
structure Cursor.Stands (all : List Token) (c : Cursor) : Prop where
  ahead : c.rest <:+ all
  ends : ∃ t, c.rest.getLast? = some t ∧ t.kind = .eof

/-- Consuming tokens does not lead behind the end. -/
theorem Cursor.Stands.ahead_of {all taken : List Token} {c c' : Cursor} (hc : c.Stands all)
    (hrest : c.rest = taken ++ c'.rest) (hinner : ∀ t ∈ taken, t.kind ≠ .eof) :
    c'.Stands all := by
  obtain ⟨ahead, t, hlast, heof⟩ := hc
  rw [hrest] at ahead hlast
  refine ⟨(List.suffix_append taken c'.rest).trans ahead, ?_⟩
  rw [List.getLast?_append] at hlast
  cases hleft : c'.rest.getLast? with
  | some u =>
    rw [hleft, Option.some_or] at hlast
    exact ⟨t, hlast, heof⟩
  | none =>
    rw [hleft, Option.none_or] at hlast
    exact absurd heof (hinner t (List.mem_of_getLast? hlast))

/-- What a parser did from `c` to `c'`: the diagnostics it emitted, and the words that open units it
kept. -/
structure Account (all : List Token) (c c' : Cursor) (ds : List Diagnostic)
    (taken kept : List Token) : Prop where
  file : c'.file = c.file
  rest : c.rest = taken ++ c'.rest
  prev : c'.prev = taken.getLast?.or c.prev
  consumed : c'.consumed = c.consumed + taken.length
  inner : ∀ t ∈ taken, t.kind ≠ .eof
  kept : kept = taken.filter fun t => t.kind.isUnitStart && !isReported c.file ds t
  reported : ∀ t ∈ all, t.kind.isUnitStart = true → isReported c.file ds t = true → t ∈ taken

namespace Account

variable {all taken taken' kept kept' : List Token} {c c' c'' : Cursor} {ds ds' : List Diagnostic}

theorem stands (h : Account all c c' ds taken kept) (hc : c.Stands all) : c'.Stands all :=
  hc.ahead_of h.rest h.inner

/-- Nothing done. -/
theorem refl (all : List Token) (c : Cursor) : Account all c c [] [] [] :=
  ⟨rfl, rfl, rfl, rfl, List.forall_mem_nil _, rfl, fun _ _ _ h => absurd h Bool.false_ne_true⟩

section Then

variable (hall : all.Pairwise Token.Before)

include hall

/-- A token behind `c'` is not among those taken before. -/
private theorem not_mem_taken (h : Account all c c' ds taken kept) (hc : c.Stands all) {t : Token}
    (ht : t ∈ c'.rest) : t ∉ taken := by
  intro htaken
  have hrest := hall.sublist hc.ahead.sublist
  rw [h.rest] at hrest
  have hbefore := (List.pairwise_append.mp hrest).2.2 t htaken t ht
  exact absurd hbefore.start (Nat.lt_irrefl _)

/-- One parser after another. -/
theorem trans (h : Account all c c' ds taken kept) (h' : Account all c' c'' ds' taken' kept')
    (hc : c.Stands all) :
    Account all c c'' (ds ++ ds') (taken ++ taken') (kept ++ kept') := by
  have hmem : ∀ t ∈ taken ++ taken', t ∈ all := by
    intro t ht
    refine hc.ahead.mem ?_
    rw [h.rest, h'.rest, ← List.append_assoc]
    exact List.mem_append_left _ ht
  -- What the second parser reports it takes itself, so the first report of a word is the only one.
  have hfirst (t : Token) (ht : t ∈ taken) (hunit : t.kind.isUnitStart = true) :
      isReported c.file ds' t = false := by
    by_contra hreported
    rw [Bool.not_eq_false, ← h.file] at hreported
    have htaken := h'.reported t (hmem t (List.mem_append_left _ ht)) hunit hreported
    have hrest : t ∈ c'.rest := by rw [h'.rest]; exact List.mem_append_left _ htaken
    exact h.not_mem_taken hall hc hrest ht
  have hsecond (t : Token) (ht : t ∈ taken') (hunit : t.kind.isUnitStart = true) :
      isReported c.file ds t = false := by
    by_contra hreported
    rw [Bool.not_eq_false] at hreported
    have htaken := h.reported t (hmem t (List.mem_append_right _ ht)) hunit hreported
    have hrest : t ∈ c'.rest := by rw [h'.rest]; exact List.mem_append_left _ ht
    exact h.not_mem_taken hall hc hrest htaken
  refine ⟨h'.file.trans h.file, ?_, ?_, ?_, ?_, ?_, ?_⟩
  · rw [h.rest, h'.rest, List.append_assoc]
  · rw [h'.prev, h.prev, List.getLast?_append, Option.or_assoc]
  · rw [h'.consumed, h.consumed, List.length_append, Nat.add_assoc]
  · intro t ht
    exact (List.mem_append.mp ht).elim (h.inner t) (h'.inner t)
  · rw [h.kept, h'.kept, List.filter_append, h.file]
    congr 1
    · apply List.filter_congr
      intro t ht
      cases hunit : t.kind.isUnitStart with
      | false => simp
      | true => simp [isReported_append, hfirst t ht hunit]
    · apply List.filter_congr
      intro t ht
      cases hunit : t.kind.isUnitStart with
      | false => simp
      | true => simp [isReported_append, hsecond t ht hunit]
  · intro t ht hunit hreported
    rw [isReported_append, Bool.or_eq_true] at hreported
    rcases hreported with hreported | hreported
    · exact List.mem_append_left _ (h.reported t ht hunit hreported)
    · exact List.mem_append_right _ (h'.reported t ht hunit (h.file ▸ hreported))

end Then

/-- A stretch of tokens without words that open units. -/
theorem plain (hfile : c'.file = c.file) (hrest : c.rest = taken ++ c'.rest)
    (hprev : c'.prev = taken.getLast?.or c.prev)
    (hconsumed : c'.consumed = c.consumed + taken.length)
    (hinner : ∀ t ∈ taken, t.kind ≠ .eof) (hunits : ∀ t ∈ taken, t.kind.isUnitStart = false)
    (hds : ∀ t ∈ all, t.kind.isUnitStart = true → isReported c.file ds t = false) :
    Account all c c' ds taken [] := by
  refine ⟨hfile, hrest, hprev, hconsumed, hinner, ?_, ?_⟩
  · symm
    rw [List.filter_eq_nil_iff]
    intro t ht
    simp [hunits t ht]
  · intro t ht hunit hreported
    rw [hds t ht hunit] at hreported
    cases hreported

/-- Consuming the next token. -/
theorem advance (all : List Token) (c : Cursor) (hunit : c.current.isUnitStart = false) :
    ∃ taken, Account all c c.advance [] taken [] := by
  unfold Cursor.advance
  cases hrest : c.rest with
  | nil => exact ⟨[], refl all c⟩
  | cons t ts =>
    have hcurrent : c.current = t.kind := by simp [Cursor.current, Cursor.kindAt, hrest]
    dsimp only
    split
    next => exact ⟨[], refl all c⟩
    next heof =>
      refine ⟨[t], plain rfl hrest rfl rfl ?_ ?_ fun _ _ _ => rfl⟩
      · simpa using heof
      · simpa [hcurrent] using hunit

/-- Reporting something else than a missing expression. -/
theorem report (all : List Token) (c : Cursor) (e : SyntaxError) (span : Span)
    (he : e ≠ .expectedExpression) :
    Account all c { c with errors := c.errors + 1 } [e.diagnostic span] [] [] := by
  refine plain rfl rfl rfl rfl (List.forall_mem_nil _) (List.forall_mem_nil _) ?_
  intro t _ _
  by_contra hreported
  rw [Bool.not_eq_false] at hreported
  exact he (isReported_diagnostic.mp hreported).1

theorem skipUntil (all : List Token) (c : Cursor) (stop : Kind → Bool)
    (hstop : ∀ kind, kind.isUnitStart = true → stop kind = true) :
    ∃ taken, Account all c (c.skipUntil stop) [] taken [] := by
  refine ⟨c.rest.takeWhile fun t => t.kind ≠ .eof && !stop t.kind, plain rfl ?_ rfl rfl ?_ ?_ ?_⟩
  · exact List.takeWhile_append_dropWhile.symm
  · intro t ht
    have hpasses := List.mem_takeWhile_imp ht
    simp only [Bool.and_eq_true, decide_eq_true_eq] at hpasses
    exact hpasses.1
  · intro t ht
    have hpasses := List.mem_takeWhile_imp ht
    simp only [Bool.and_eq_true, Bool.not_eq_true'] at hpasses
    by_contra hunit
    rw [hstop _ (by simpa using hunit)] at hpasses
    exact absurd hpasses.2 (by simp)
  · exact fun _ _ _ => rfl

end Account

/-- A cursor inside a stream has a next token. -/
theorem Cursor.Stands.exists_next {all : List Token} {c : Cursor} (hc : c.Stands all) :
    ∃ t ts, c.rest = t :: ts := by
  obtain ⟨-, t, hlast, -⟩ := hc
  cases hrest : c.rest with
  | nil => rw [hrest] at hlast; cases hlast
  | cons t ts => exact ⟨t, ts, rfl⟩

theorem Cursor.Stands.rest_ne_nil {all : List Token} {c : Cursor} (hc : c.Stands all) :
    c.rest ≠ [] := by
  obtain ⟨t, ts, hrest⟩ := hc.exists_next
  rw [hrest]
  exact List.cons_ne_nil t ts

section Runs

variable {α β : Type} {x : ParserM α} {f : α → ParserM β} {a : α} {c c' : Cursor} {s t : Session}

/-- A parser hands its result, its cursor and its session on. -/
theorem run_bind (h : (x.task c).run s = ((a, c'), t)) :
    ((x >>= f).task c).run s = ((f a).task c').run t := by
  show Task.run (.chain (x.task c) _) s = _
  rw [Task.run_chain, h]
  rfl

theorem emitted_bind (h : (x.task c).run s = ((a, c'), t)) :
    ((x >>= f).task c).emitted s = (x.task c).emitted s ++ ((f a).task c').emitted t := by
  show Task.emitted (.chain (x.task c) _) s = _
  rw [Task.emitted, h]
  rfl

theorem report_run (e : SyntaxError) (c : Cursor) (s : Session) :
    ((report e).task c).run s =
      (((), { c with errors := c.errors + 1 }), s.emit (e.diagnostic c.currentSpan)) := rfl

theorem skipUntil_run (stop : Kind → Bool) (c : Cursor) (s : Session) :
    ((skipUntil stop).task c).run s = (((), c.skipUntil stop), s) := rfl

theorem take_run {kind : Kind} (h : c.current = kind) (s : Session) :
    ((take kind).task c).run s = (((), c.advance), s) ∧ ((take kind).task c).emitted s = [] := by
  have heat : ((eat kind).task c).run s = ((true, c.advance), s) := by
    show ((if c.current = kind then (true, c.advance) else (false, c)), s) = _
    rw [if_pos h]
  refine ⟨?_, rfl⟩
  rw [take, run_bind heat]
  rfl

theorem noOperand_run (c : Cursor) (s : Session) :
    ((noOperand.task c).run s).1.2 = (if endsExpression c.current then
      { c with errors := c.errors + 1 } else { c with errors := c.errors + 1 }.advance) ∧
    (noOperand.task c).emitted s = [SyntaxError.expectedExpression.diagnostic c.currentSpan] := by
  have hlook : (look.task c).run s = ((c, c), s) := rfl
  have hreport : ((reportAt .expectedExpression c.currentSpan).task c).run s =
      (((), { c with errors := c.errors + 1 }),
        s.emit (SyntaxError.expectedExpression.diagnostic c.currentSpan)) := rfl
  have hsame : { c with errors := c.errors + 1 }.current = c.current := rfl
  obtain ⟨htake, hquiet⟩ :=
    take_run hsame (s.emit (SyntaxError.expectedExpression.diagnostic c.currentSpan))
  rw [noOperand, run_bind hlook, run_bind hreport, emitted_bind hlook, emitted_bind hreport]
  cases endsExpression c.current with
  | true => exact ⟨rfl, rfl⟩
  | false =>
    simp only [Bool.false_eq_true, if_false]
    rw [run_bind htake, emitted_bind htake, hquiet]
    exact ⟨rfl, rfl⟩

end Runs

theorem not_endsExpression {kind : Kind} (h : kind.isUnitStart = true) :
    endsExpression kind = false := by
  cases kind <;> first | rfl | cases h

section Parsers

variable {all : List Token} (hall : all.Pairwise Token.Before)

include hall

private theorem eq_of_start {t u : Token} (ht : t ∈ all) (hu : u ∈ all) (h : t.start = u.start) :
    t = u := by
  have hnodup : (all.map Token.start).Nodup :=
    List.pairwise_map.mpr (hall.imp fun h => Nat.ne_of_lt h.start)
  exact List.inj_on_of_nodup_map hnodup ht hu h

theorem account_noOperand {c : Cursor} (hc : c.Stands all) (s : Session) :
    ∃ taken, Account all c ((noOperand.task c).run s).1.2 ((noOperand.task c).emitted s)
      taken [] := by
  obtain ⟨t, ts, hrest⟩ := hc.exists_next
  have hmem : t ∈ all := hc.ahead.mem (by rw [hrest]; exact List.mem_cons_self)
  have hcurrent : c.current = t.kind := by simp [Cursor.current, Cursor.kindAt, hrest]
  have hspan : c.currentSpan = t.span c.file := by simp [Cursor.currentSpan, hrest]
  have hreported (u : Token) (hu : u ∈ all)
      (h : isReported c.file [SyntaxError.expectedExpression.diagnostic c.currentSpan] u = true) :
      u = t := by
    obtain ⟨-, hsame⟩ := isReported_diagnostic.mp h
    rw [hspan] at hsame
    exact eq_of_start hall hu hmem (congrArg Span.start hsame).symm
  obtain ⟨hrun, hemitted⟩ := noOperand_run c s
  rw [hrun, hemitted, hcurrent]
  have hstays (hunit : t.kind.isUnitStart = false) :
      Account all c { c with errors := c.errors + 1 }
        [SyntaxError.expectedExpression.diagnostic c.currentSpan] [] [] := by
    refine .plain rfl rfl rfl rfl (List.forall_mem_nil _) (List.forall_mem_nil _) ?_
    intro u hu hopens
    by_contra hsame
    rw [hreported u hu (by simpa using hsame), hunit] at hopens
    cases hopens
  cases hends : endsExpression t.kind with
  | true =>
    refine ⟨[], hstays ?_⟩
    by_contra hunit
    rw [not_endsExpression (by simpa using hunit)] at hends
    cases hends
  | false =>
    simp only [Bool.false_eq_true, if_false, Cursor.advance, hrest]
    by_cases heof : t.kind = .eof
    · simp only [heof, if_true, ← hrest]
      exact ⟨[], hstays (by rw [heof]; rfl)⟩
    · have htold : isReported c.file [SyntaxError.expectedExpression.diagnostic c.currentSpan] t :=
        isReported_diagnostic.mpr ⟨rfl, hspan⟩
      simp only [heof, if_false]
      refine ⟨[t], rfl, hrest, rfl, rfl, by simpa using heof, by simp [htold], ?_⟩
      intro u hu _ hsame
      rw [hreported u hu hsame]
      exact List.mem_singleton_self t

variable {α β : Type} {file : Nat}

/-- A parser that mirrors another without opening units keeps none of the words that do. -/
theorem Mirror.account {Q : α → β → Prop} {x : ParserM α} {y : ParserM β}
    (h : Mirror (Frame.ofFile file) Q x y) {c c' : Cursor}
    (hcursors : (Frame.ofFile file).Cursors c c') (hc : c.Stands all) (s s' : Session) :
    ∃ taken, Account all c ((x.task c).run s).1.2 ((x.task c).emitted s) taken [] := by
  induction h generalizing c c' s s' with
  | done _ => exact ⟨[], .refl all c⟩
  | @chain _ _ _ _ _ _ x y f g hfirst hnext ihFirst ihNext =>
    obtain ⟨taken, haccount⟩ := ihFirst hcursors hc s s'
    obtain ⟨⟨hresult, hafter⟩, -⟩ :=
      (hfirst.paired (serves_ofFile file) hcursors).run (holds_free s _ s' _)
    obtain ⟨taken', haccount'⟩ := ihNext _ _ hresult hafter (haccount.stands hc)
      ((x.task c).run s).2 ((y.task c').run s').2
    exact ⟨taken ++ taken', haccount.trans hall haccount' hc⟩
  | mono _ _ ih => exact ih hcursors hc s s'
  | look => exact ⟨[], .refl all c⟩
  | eat kind hkind =>
    show ∃ taken, Account all c (if c.current = kind then (true, c.advance) else (false, c)).2 []
      taken []
    split
    next hcurrent =>
      refine Account.advance all c ?_
      rw [hcurrent]
      by_contra hunit
      exact hkind (by simpa using hunit)
    next => exact ⟨[], .refl all c⟩
  | skipUntil stop hstop => exact Account.skipUntil all c stop hstop
  | reportAt he _ => exact ⟨[], Account.report all c _ _ he⟩
  | intern text => exact ⟨[], .refl all c⟩
  | noOperand => exact account_noOperand hall hc s

/-- The same for one parser, with what it does written out. -/
theorem Mirror.account_self {Q : α → α → Prop} {x : ParserM α}
    (h : Mirror (Frame.ofFile file) Q x x) {c : Cursor}
    (hcursors : (Frame.ofFile file).Cursors c c) (hc : c.Stands all) (s : Session) :
    ∃ a c' t taken, (x.task c).run s = ((a, c'), t) ∧
      Account all c c' ((x.task c).emitted s) taken [] ∧ (Frame.ofFile file).Cursors c' c' := by
  obtain ⟨taken, haccount⟩ := h.account hall hcursors hc s s
  obtain ⟨⟨-, hafter⟩, -⟩ := (h.paired (serves_ofFile file) hcursors).run (holds_free s _ s _)
  exact ⟨_, _, _, taken, rfl, haccount, hafter⟩

end Parsers

section Emitted

variable {α : Type} {x : ParserM α} {c : Cursor} {s : Session} {d : Diagnostic}

/-- Parsers report syntax errors only. -/
theorem exists_of_mem_task (h : d ∈ (x.task c).emitted s) :
    ∃ (e : SyntaxError) (span : Span), d = e.diagnostic span := by
  induction x generalizing c s with
  | done a => cases h
  | call op =>
    cases op with
    | report e span => exact ⟨e, span, List.mem_singleton.mp h⟩
    | _ => cases h
  | chain first next ihFirst ihNext =>
    rcases List.mem_append.mp h with h | h
    · exact ihFirst h
    · exact ihNext _ h

theorem code_of_mem_task (h : d ∈ (x.task c).emitted s) : d.code = SyntaxError.code := by
  obtain ⟨e, span, rfl⟩ := exists_of_mem_task h
  rfl

theorem severity_of_mem_task (h : d ∈ (x.task c).emitted s) : d.severity = .error := by
  obtain ⟨e, span, rfl⟩ := exists_of_mem_task h
  rfl

end Emitted

end Parser

end Netlist
