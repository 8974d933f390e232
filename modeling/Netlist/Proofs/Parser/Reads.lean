import Netlist.Proofs.Parser.Account
import Netlist.Proofs.Syntax.Written

/-!
Parses that go well. A parser reads a stretch of the tokens ahead if it consumes just them, reports
nothing, and none of them is a broken lexeme. What a chain of parsers reads is what its parts read,
one behind the other, so each parser has a lemma that lets it read and one that tells what it read.
-/
namespace Netlist

/-- The kinds of the tokens that a parse which goes well can consume. -/
def Kind.Solid (k : Kind) : Prop := k ≠ .eof ∧ k ≠ .error

instance (k : Kind) : Decidable k.Solid := inferInstanceAs (Decidable (_ ∧ _))

namespace Parser

open Syntax

variable {α β : Type}

theorem current_of_rest {c : Cursor} {ts : List Token} (h : c.rest = ts) :
    c.current = headKind ts := by
  subst h
  unfold Cursor.current Cursor.kindAt headKind
  cases c.rest <;> rfl

theorem currentSpan_of_rest {c : Cursor} {file : Nat} {t : Token} {ts : List Token}
    (h : c.rest = t :: ts) (hfile : c.file = file) : c.currentSpan = t.span file := by
  rw [Cursor.currentSpan, h, hfile]
  rfl

theorem rest_advance {c : Cursor} {t : Token} {ts : List Token} (h : c.rest = t :: ts)
    (ht : t.kind ≠ .eof) : c.advance.rest = ts := by
  rw [Cursor.advance, h]
  dsimp only
  rw [if_neg ht]

/-- From `c` to `c'` just the tokens `ts` were consumed. -/
structure Cursor.Passes (c : Cursor) (ts : List Token) (c' : Cursor) : Prop where
  file : c'.file = c.file
  rest : c.rest = ts ++ c'.rest
  prev : c'.prev = ts.getLast?.or c.prev
  consumed : c'.consumed = c.consumed + ts.length
  inner : ∀ t ∈ ts, t.kind ≠ .eof

namespace Cursor.Passes

variable {c c' c'' : Cursor} {ts us : List Token}

theorem stay (hfile : c'.file = c.file) (hrest : c'.rest = c.rest) (hprev : c'.prev = c.prev)
    (hconsumed : c'.consumed = c.consumed) : c.Passes [] c' :=
  ⟨hfile, hrest.symm, hprev, hconsumed, List.forall_mem_nil _⟩

theorem trans (h : c.Passes ts c') (h' : c'.Passes us c'') : c.Passes (ts ++ us) c'' where
  file := h'.file.trans h.file
  rest := by rw [h.rest, h'.rest, List.append_assoc]
  prev := by rw [h'.prev, h.prev, List.getLast?_append, Option.or_assoc]
  consumed := by rw [h'.consumed, h.consumed, List.length_append, Nat.add_assoc]
  inner t ht := (List.mem_append.mp ht).elim (h.inner t) (h'.inner t)

/-- The tokens between two cursors are the only ones consumed. -/
theorem eq (h : c.Passes ts c') (h' : c.Passes us c') : ts = us :=
  List.append_cancel_right (h.rest.symm.trans h'.rest)

/-- Nothing is consumed where the tokens ahead stay the same. -/
theorem eq_nil (h : c.Passes ts c') (hsame : c'.rest = c.rest) : ts = [] :=
  List.self_eq_append_left.mp (hsame.trans h.rest)

theorem advance (c : Cursor) : ∃ ts, c.Passes ts c.advance := by
  unfold Cursor.advance
  cases hrest : c.rest with
  | nil => exact ⟨[], stay rfl rfl rfl rfl⟩
  | cons t ts =>
    dsimp only
    split
    next => exact ⟨[], stay rfl rfl rfl rfl⟩
    next heof => exact ⟨[t], rfl, hrest, rfl, rfl, by simpa using heof⟩

theorem skipUntil (c : Cursor) (stop : Kind → Bool) :
    c.Passes (c.rest.takeWhile fun t => t.kind ≠ .eof && !stop t.kind) (c.skipUntil stop) := by
  refine ⟨rfl, ?_, rfl, rfl, ?_⟩
  · exact List.takeWhile_append_dropWhile.symm
  · intro t ht
    have hpasses := List.mem_takeWhile_imp ht
    simp only [Bool.and_eq_true, decide_eq_true_eq] at hpasses
    exact hpasses.1

/-- Every parser only ever goes forward. -/
theorem exists_run (x : ParserM α) (c : Cursor) (s : Session) :
    ∃ ts, c.Passes ts ((x.task c).run s).1.2 := by
  induction x generalizing c s with
  | done a => exact ⟨[], stay rfl rfl rfl rfl⟩
  | call op =>
    cases op with
    | look => exact ⟨[], stay rfl rfl rfl rfl⟩
    | eat kind =>
      show ∃ ts, c.Passes ts (if c.current = kind then (true, c.advance) else (false, c)).2
      split
      · exact advance c
      · exact ⟨[], stay rfl rfl rfl rfl⟩
    | skipUntil stop => exact ⟨_, skipUntil c stop⟩
    | report e span => exact ⟨[], stay rfl rfl rfl rfl⟩
    | intern text => exact ⟨[], stay rfl rfl rfl rfl⟩
    | misuse m => exact ⟨[], stay rfl rfl rfl rfl⟩
  | chain first next ihFirst ihNext =>
    obtain ⟨ts, hts⟩ := ihFirst c s
    obtain ⟨us, hus⟩ := ihNext _ _ _
    exact ⟨ts ++ us, hts.trans hus⟩

end Cursor.Passes

/-- The parser `x` reads `ts` from `c` on, and gives `a`. -/
structure Reads (x : ParserM α) (c : Cursor) (s : Session) (ts : List Token) (a : α) (c' : Cursor)
    (s' : Session) : Prop where
  run : (x.task c).run s = ((a, c'), s')
  quiet : (x.task c).emitted s = []
  rest : c.rest = ts ++ c'.rest
  clean : ∀ t ∈ ts, t.kind ≠ .error

namespace Reads

variable {x : ParserM α} {f : α → ParserM β} {c c' c'' : Cursor} {s s' s'' : Session}
  {ts us : List Token} {a : α} {b : β}

theorem file (h : Reads x c s ts a c' s') : c'.file = c.file := by
  obtain ⟨_, hpasses⟩ := Cursor.Passes.exists_run x c s
  rw [h.run] at hpasses
  exact hpasses.file

theorem names_extends (h : Reads x c s ts a c' s') : s.names.Extends s'.names :=
  Task.extends_of_run h.run

/-- The tokens between two cursors are the ones consumed. -/
theorem passes (h : Reads x c s ts a c' s') : c.Passes ts c' := by
  obtain ⟨us, hpasses⟩ := Cursor.Passes.exists_run x c s
  rw [h.run] at hpasses
  have heq : ts = us := List.append_cancel_right (h.rest.symm.trans hpasses.rest)
  rwa [heq]

theorem cast (h : Reads x c s ts a c' s') (heq : ts = us) : Reads x c s us a c' s' := heq ▸ h

theorem pure : Reads (Pure.pure a) c s [] a c s :=
  ⟨rfl, rfl, rfl, List.forall_mem_nil _⟩

theorem bind (h : Reads x c s ts a c' s') (hf : Reads (f a) c' s' us b c'' s'') :
    Reads (x >>= f) c s (ts ++ us) b c'' s'' where
  run := by rw [run_bind h.run, hf.run]
  quiet := by rw [emitted_bind h.run, h.quiet, hf.quiet, List.append_nil]
  rest := by rw [h.rest, hf.rest, List.append_assoc]
  clean t ht := (List.mem_append.mp ht).elim (h.clean t) (hf.clean t)

/-- After a step that consumes nothing. -/
theorem step (h : Reads x c s [] a c' s') (hf : Reads (f a) c' s' us b c'' s'') :
    Reads (x >>= f) c s us b c'' s'' := h.bind hf

theorem map {g : α → β} (h : Reads x c s ts a c' s') : Reads (g <$> x) c s ts (g a) c' s' :=
  (h.bind (f := fun a => Pure.pure (g a)) pure).cast (List.append_nil ts)

/-- What a chain of two parsers read. -/
theorem of_bind (h : Reads (x >>= f) c s ts b c'' s'') :
    ∃ a c' s' us vs, ts = us ++ vs ∧ Reads x c s us a c' s' ∧
      Reads (f a) c' s' vs b c'' s'' := by
  rcases hx : (x.task c).run s with ⟨⟨a, c'⟩, s'⟩
  obtain ⟨us, hus⟩ := Cursor.Passes.exists_run x c s
  obtain ⟨vs, hvs⟩ := Cursor.Passes.exists_run (f a) c' s'
  have hrun := h.run
  have hquiet := h.quiet
  rw [run_bind hx] at hrun
  rw [emitted_bind hx, List.append_eq_nil_iff] at hquiet
  rw [hx] at hus
  rw [hrun] at hvs
  have heq : ts = us ++ vs := by
    have hrest := h.rest
    rw [hus.rest, hvs.rest, ← List.append_assoc] at hrest
    exact (List.append_cancel_right hrest).symm
  refine ⟨a, c', s', us, vs, heq, ⟨hx, hquiet.1, hus.rest, ?_⟩, ⟨hrun, hquiet.2, hvs.rest, ?_⟩⟩
  · exact fun t ht => h.clean t (heq ▸ List.mem_append_left vs ht)
  · exact fun t ht => h.clean t (heq ▸ List.mem_append_right us ht)

theorem of_pure {a' : α} (h : Reads (Pure.pure a) c s ts a' c' s') :
    ts = [] ∧ a' = a ∧ c' = c ∧ s' = s := by
  obtain ⟨hrun, -, hrest, -⟩ := h
  cases hrun
  exact ⟨List.self_eq_append_left.mp hrest, rfl, rfl, rfl⟩

theorem of_map {g : α → β} (h : Reads (g <$> x) c s ts b c' s') :
    ∃ a, b = g a ∧ Reads x c s ts a c' s' := by
  obtain ⟨a, _, _, us, vs, rfl, hx, hpure⟩ := of_bind (f := fun a => Pure.pure (g a)) h
  obtain ⟨rfl, rfl, rfl, rfl⟩ := of_pure hpure
  exact ⟨a, rfl, by rwa [List.append_nil]⟩

/-- What is left to read of a chain once its first part is known. -/
theorem next (h : Reads (x >>= f) c s ts b c'' s'') (hx : Reads x c s us a c' s') :
    ∃ vs, ts = us ++ vs ∧ Reads (f a) c' s' vs b c'' s'' := by
  obtain ⟨a₁, c₁, s₁, us₁, vs, rfl, hx₁, hf⟩ := of_bind h
  have hrun := hx₁.run.symm.trans hx.run
  simp only [Prod.mk.injEq] at hrun
  obtain ⟨⟨rfl, rfl⟩, rfl⟩ := hrun
  have heq : us₁ = us := List.append_cancel_right (hx₁.rest.symm.trans hx.rest)
  exact ⟨vs, by rw [heq], hf⟩

/-- A parser that reports something reads nothing. -/
theorem not_reportAt {e : SyntaxError} {span : Span} {u : Unit} :
    ¬ Reads (reportAt e span) c s ts u c' s' := fun h => List.cons_ne_nil _ _ h.quiet

theorem look : Reads look c s [] c c s :=
  ⟨rfl, rfl, rfl, List.forall_mem_nil _⟩

theorem current : Reads current c s [] c.current c s :=
  ⟨rfl, rfl, rfl, List.forall_mem_nil _⟩

theorem currentSpan : Reads currentSpan c s [] c.currentSpan c s :=
  ⟨rfl, rfl, rfl, List.forall_mem_nil _⟩

theorem remaining : Reads remaining c s [] c.rest.length c s :=
  ⟨rfl, rfl, rfl, List.forall_mem_nil _⟩

theorem sees (kind : Kind) : Reads (sees kind) c s [] (decide (c.current = kind)) c s :=
  ⟨rfl, rfl, rfl, List.forall_mem_nil _⟩

theorem intern (text : String) :
    Reads (intern text) c s [] (s.intern text).1 c (s.intern text).2 :=
  ⟨rfl, rfl, rfl, List.forall_mem_nil _⟩

/-- A token of a kind other than the one asked for stays. -/
theorem eat_other {kind : Kind} (h : c.current ≠ kind) : Reads (eat kind) c s [] false c s :=
  ⟨show Task.run (return _) s = _ by rw [if_neg h]; rfl, rfl, rfl, List.forall_mem_nil _⟩

theorem eat {kind : Kind} {t : Token} {rest : List Token} (hrest : c.rest = t :: rest)
    (hkind : t.kind = kind) (hsolid : kind.Solid) : ∃ c', c'.rest = rest ∧
    Reads (eat kind) c s [t] true c' s := by
  have hcurrent : c.current = kind := by rw [current_of_rest hrest, headKind, hkind]
  have hadvance : c.advance.rest = rest := rest_advance hrest (hkind ▸ hsolid.1)
  refine ⟨c.advance, hadvance, ?_, rfl, by rw [hadvance, hrest]; rfl, ?_⟩
  · show Task.run (return _) s = _
    rw [if_pos hcurrent]
    rfl
  · exact List.forall_mem_singleton.mpr (hkind ▸ hsolid.2)

end Reads

/-- A parser that goes on without a look at the tokens it leaves, and enters no name. -/
def Silent (x : ParserM α) : Prop := ∀ c s, ∃ a c', Reads x c s [] a c' s

namespace Silent

variable {x : ParserM α} {f : α → ParserM β}

theorem pure (a : α) : Silent (Pure.pure a) := fun c _ => ⟨a, c, Reads.pure⟩

theorem bind (hx : Silent x) (hf : ∀ a, Silent (f a)) : Silent (x >>= f) := by
  intro c s
  obtain ⟨a, c', hx⟩ := hx c s
  obtain ⟨b, c'', hf⟩ := hf a c' s
  exact ⟨b, c'', hx.step hf⟩

theorem look : Silent look := fun c _ => ⟨c, c, Reads.look⟩

theorem demand (a : α) (r : Except Misuse α) : Silent (demand a r) := by
  cases r with
  | ok b => exact pure b
  | error m => exact bind (fun _ _ => ⟨_, _, rfl, rfl, rfl, List.forall_mem_nil _⟩) fun _ => pure a

theorem currentSpan : Silent currentSpan := look.bind fun c => pure c.currentSpan

theorem merge (a b : Span) : Silent (merge a b) := demand _ _

theorem spanFrom (start : Span) : Silent (spanFrom start) :=
  (look.bind fun c => demand c.currentSpan c.prevSpan).bind (merge start)

theorem spanSince (start : Span) (consumed : Nat) : Silent (spanSince start consumed) := by
  refine look.bind fun c => ?_
  split
  · exact spanFrom start
  · exact pure _

end Silent

end Parser

end Netlist
