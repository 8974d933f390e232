import Netlist.Proofs.Parser.Anatomy
import Netlist.Proofs.Syntax.Layout

/-!
Where parsers lay what they read. As long as nothing is reported, the value a parser gives, the
tokens it consumed and the tokens it left are in a given relation; tokens that are broken lexemes
may be among them. The tokens consumed before are kept in view, since spans are made from a place
further back up to the token consumed last.
-/
namespace Netlist

/-- A span over the first ones of some tokens. -/
def Span.Opens (file : Nat) (span : Span) (ts : List Token) : Prop :=
  ∃ us, us <+: ts ∧ span.Over file us

namespace Span

variable {file : Nat} {a b : Span} {t : Token} {ts us : List Token}

theorem Over.token : (t.span file).Over file [t] := ⟨t, t, rfl, rfl, rfl⟩

theorem Over.opens (h : a.Over file ts) : a.Opens file (ts ++ us) :=
  ⟨ts, List.prefix_append ts us, h⟩

theorem Opens.eq_token (h : a.Opens file [t]) : a = t.span file := by
  obtain ⟨us, hus, hover⟩ := h
  obtain rfl : us = [t] := (List.prefix_cons_iff.mp hus).elim (fun h => absurd h hover.ne_nil)
    fun ⟨vs, hvs, hnil⟩ => hvs.trans (by rw [List.prefix_nil.mp hnil])
  obtain ⟨first, last, hfirst, hlast, rfl⟩ := hover
  cases hfirst
  cases hlast
  rfl

/-- From where tokens begin to where they end. -/
theorem Opens.cover (h : a.Opens file ts) (hplaced : Placed ts)
    (hfront : ∃ t ∈ ts, b.start = t.start)
    (hback : ∀ last, ts.getLast? = some last → b.stop = last.stop) : (a.cover b).Over file ts := by
  obtain ⟨us, ⟨vs, rfl⟩, first, last, hfirst, hlast, rfl⟩ := h
  have hhead : (us ++ vs).head? = some first := by rw [List.head?_append, hfirst, Option.some_or]
  obtain ⟨final, hfinal⟩ : ∃ final, (us ++ vs).getLast? = some final := by
    rw [List.getLast?_append, hlast]
    cases vs.getLast? <;> exact ⟨_, rfl⟩
  have hwhole : Span.Over file ⟨file, first.start, final.stop⟩ (us ++ vs) :=
    ⟨first, final, hhead, hfinal, rfl⟩
  obtain ⟨t, ht, hstart⟩ := hfront
  have hinside := hwhole.liesIn hplaced ht
  have hbefore := hwhole.liesIn hplaced (List.mem_append_left vs (List.mem_of_getLast? hlast))
  simp only [Token.liesIn, Bool.and_eq_true, decide_eq_true_eq] at hinside hbefore
  rwa [Span.cover, hstart, hback final hfinal, Nat.min_eq_left hinside.1,
    Nat.max_eq_right hbefore.2]

end Span

namespace Parser

open Syntax

variable {α β : Type} {file : Nat} {pre r : List Token}

/-- A cursor between the tokens `pre` of a file and the tokens `r`. -/
structure Cursor.Between (file : Nat) (pre r : List Token) (c : Cursor) : Prop where
  file : c.file = file
  prev : c.prev = pre.getLast?
  rest : c.rest = r
  consumed : c.consumed = pre.length
  ordered : (pre ++ r).Pairwise Token.Before
  stands : c.Stands (pre ++ r)

namespace Cursor.Between

variable {c c' : Cursor}

theorem passes {ts : List Token} (h : c.Between file pre r) (hpasses : c.Passes ts c') :
    r = ts ++ c'.rest ∧ c'.Between file (pre ++ ts) c'.rest := by
  have hr : r = ts ++ c'.rest := h.rest.symm.trans hpasses.rest
  have hall : pre ++ ts ++ c'.rest = pre ++ r := by rw [List.append_assoc, ← hr]
  refine ⟨hr, hpasses.file.trans h.file, ?_, rfl, ?_, ?_, ?_⟩
  · rw [hpasses.prev, h.prev, List.getLast?_append]
  · rw [hpasses.consumed, h.consumed, List.length_append]
  · rw [hall]
    exact h.ordered
  · rw [hall]
    exact hpasses.stands h.stands

/-- What has been consumed does not reach the end. -/
theorem placed (h : c.Between file pre r) : Placed pre := by
  obtain ⟨hpre, -, hacross⟩ := List.pairwise_append.mp h.ordered
  obtain ⟨u, us, hnext⟩ := h.stands.exists_next
  refine ⟨hpre.imp fun h => h.stop, fun t ht => (hacross t ht u ?_).filled⟩
  rw [← h.rest, hnext]
  exact List.mem_cons_self

theorem ne_nil (h : c.Between file pre r) : r ≠ [] := by
  rw [← h.rest]
  exact h.stands.rest_ne_nil

/-- The next token opens all that are consumed from here on. -/
theorem opens (h : c.Between file pre r) (ts r' : List Token) (hr : r = ts ++ r') (hne : ts ≠ []) :
    c.currentSpan.Opens file ts := by
  obtain ⟨t, ts, rfl⟩ := List.exists_cons_of_ne_nil hne
  rw [currentSpan_of_rest (h.rest.trans hr) h.file]
  exact ⟨[t], ⟨ts, rfl⟩, .token⟩

end Cursor.Between

/-- Between the tokens `pre` and `r` of the file, `x` gives only such values, consumes only such
tokens and leaves only such tokens as `Q` allows, unless it reports something. -/
def Lays (file : Nat) (pre r : List Token) (x : ParserM α)
    (Q : α → List Token → List Token → Prop) : Prop :=
  ∀ c s a c' t ts, c.Between file pre r → (x.task c).run s = ((a, c'), t) →
    (x.task c).emitted s = [] → c.Passes ts c' → Q a ts c'.rest

namespace Lays

variable {x : ParserM α} {f : α → ParserM β} {P P' : α → List Token → List Token → Prop}
  {Q : β → List Token → List Token → Prop}

theorem mono (h : Lays file pre r x P) (himp : ∀ a ts r', r = ts ++ r' → P a ts r' → P' a ts r') :
    Lays file pre r x P' := by
  intro c s a c' t ts hc hrun hquiet hpasses
  exact himp a ts c'.rest (hc.passes hpasses).1 (h c s a c' t ts hc hrun hquiet hpasses)

theorem anything : Lays file pre r x fun _ _ _ => True :=
  fun _ _ _ _ _ _ _ _ _ _ => trivial

theorem pure {a : α} (h : P a [] r) : Lays file pre r (Pure.pure a) P := by
  intro c s b c' t ts hc hrun _ hpasses
  cases hrun
  rwa [hpasses.eq_nil rfl, hc.rest]

theorem bind (hx : Lays file pre r x P)
    (hf : ∀ a us r', r = us ++ r' → P a us r' →
      Lays file (pre ++ us) r' (f a) fun b vs r'' => Q b (us ++ vs) r'') :
    Lays file pre r (x >>= f) Q := by
  intro c s b c'' t ts hc hrun hquiet hpasses
  rcases hfirst : (x.task c).run s with ⟨⟨a, c'⟩, u⟩
  rw [run_bind hfirst] at hrun
  rw [emitted_bind hfirst, List.append_eq_nil_iff] at hquiet
  obtain ⟨us, hus⟩ := Cursor.Passes.exists_run x c s
  obtain ⟨vs, hvs⟩ := Cursor.Passes.exists_run (f a) c' u
  rw [hfirst] at hus
  rw [hrun] at hvs
  obtain ⟨hr, hc'⟩ := hc.passes hus
  rw [hpasses.eq (hus.trans hvs)]
  exact hf a us c'.rest hr (hx c s a c' u us hc hfirst hquiet.1 hus) c' u b c'' t vs hc' hrun
    hquiet.2 hvs

theorem map {g : α → β} (hx : Lays file pre r x fun a => Q (g a)) :
    Lays file pre r (g <$> x) Q := by
  refine hx.bind (f := fun a => Pure.pure (g a)) fun a us r' _ h => .pure ?_
  rwa [List.append_nil]

/-- After a step that consumes nothing. -/
theorem stay {R : α → Prop} (hx : Lays file pre r x fun a ts _ => ts = [] ∧ R a)
    (hf : ∀ a, R a → Lays file pre r (f a) Q) : Lays file pre r (x >>= f) Q := by
  refine hx.bind fun a us r' hr ⟨hus, ha⟩ => ?_
  subst hus hr
  rw [List.append_nil]
  exact hf a ha

/-- A step that leaves the cursor as it is. -/
theorem still {R : α → Prop}
    (hx : ∀ c s, c.Between file pre r →
      ∃ a s', (x.task c).run s = ((a, c), s') ∧ R a) :
    Lays file pre r x fun a ts _ => ts = [] ∧ R a := by
  intro c s a c' t ts hc hrun _ hpasses
  obtain ⟨a', s', hrun', ha⟩ := hx c s hc
  cases hrun.symm.trans hrun'
  exact ⟨hpasses.eq_nil rfl, ha⟩

theorem look {f : Cursor → ParserM β} (hf : ∀ c, c.Between file pre r → Lays file pre r (f c) Q) :
    Lays file pre r (look >>= f) Q :=
  stay (still fun c s hc => ⟨c, s, Reads.look.run, hc⟩) hf

theorem current {f : Kind → ParserM β} (hf : Lays file pre r (f (headKind r)) Q) :
    Lays file pre r (current >>= f) Q :=
  stay (R := (· = headKind r))
    (still fun _ s hc => ⟨_, s, Reads.current.run, current_of_rest hc.rest⟩) fun _ h => h ▸ hf

theorem remaining {f : Nat → ParserM β} (hf : Lays file pre r (f r.length) Q) :
    Lays file pre r (remaining >>= f) Q :=
  stay (R := (· = r.length))
    (still fun _ s hc => ⟨_, s, Reads.remaining.run, congrArg List.length hc.rest⟩)
    fun _ h => h ▸ hf

theorem intern {text : String} {f : Nat → ParserM β} (hf : ∀ i, Lays file pre r (f i) Q) :
    Lays file pre r (intern text >>= f) Q :=
  stay (R := fun _ => True) (still fun _ _ _ => ⟨_, _, (Reads.intern text).run, trivial⟩)
    fun i _ => hf i

/-- What always reports something need not be looked at. -/
theorem told (hx : ∀ c s, (x.task c).emitted s ≠ []) : Lays file pre r x P :=
  fun c s _ _ _ _ _ _ hquiet _ => absurd hquiet (hx c s)

theorem reportAt {e : SyntaxError} {span : Span} {f : Unit → ParserM β} :
    Lays file pre r (reportAt e span >>= f) Q :=
  (told (x := Parser.reportAt e span) (P := fun _ _ _ => False)
    fun _ _ => List.cons_ne_nil _ _).bind fun _ _ _ _ h => h.elim

theorem report {e : SyntaxError} {f : Unit → ParserM β} :
    Lays file pre r (report e >>= f) Q :=
  (told (x := Parser.report e) (P := fun _ _ _ => False)
    fun _ _ => List.cons_ne_nil _ _).bind fun _ _ _ _ h => h.elim

section Spans

/-- The span of the next token, at which the tokens consumed from here on begin. -/
theorem currentSpan {f : Span → ParserM β}
    (hf : ∀ start, (∀ ts r', r = ts ++ r' → ts ≠ [] → start.Opens file ts) →
      Lays file pre r (f start) Q) :
    Lays file pre r (currentSpan >>= f) Q := by
  refine stay (R := fun start => ∀ ts r', r = ts ++ r' → ts ≠ [] → start.Opens file ts)
    (still fun c s hc => ⟨_, s, Reads.currentSpan.run, ?_⟩) hf
  exact hc.opens

variable {start a b : Span} {f : Span → ParserM β}

/-- A span from where the tokens `own` begin to the token consumed last. -/
theorem lays_spanFrom {own : List Token} (hown : own <:+ pre) (hstart : start.Opens file own) :
    Lays file pre r (spanFrom start) fun span ts _ => ts = [] ∧ span.Over file own := by
  refine still fun c s hc => ?_
  have hfile : start.file = file := by
    obtain ⟨us, -, hus⟩ := hstart
    exact hus.file_eq
  have hne : own ≠ [] := by
    obtain ⟨us, hus, hover⟩ := hstart
    rintro rfl
    exact hover.ne_nil (List.prefix_nil.mp hus)
  obtain ⟨last, hlast⟩ : ∃ last, own.getLast? = some last :=
    Option.isSome_iff_exists.mp (List.getLast?_isSome.mpr hne)
  have hprev : c.prev = some last := by
    obtain ⟨us, rfl⟩ := hown
    rw [hc.prev, List.getLast?_append, hlast, Option.some_or]
  have hconsumed : c.consumed ≠ 0 := by
    rw [hc.consumed]
    exact Nat.ne_of_gt (List.length_pos_iff.mpr fun hnil => hne (List.suffix_nil.mp (hnil ▸ hown)))
  refine ⟨_, s, (spanFrom_run hprev hconsumed start (hfile.trans hc.file.symm) s).1, ?_⟩
  refine hstart.cover (hc.placed.of_infix hown.isInfix) ⟨last, List.mem_of_getLast? hlast, rfl⟩ ?_
  intro last' hlast'
  cases hlast.symm.trans hlast'
  rfl

theorem spanFrom (own : List Token) (hown : own <:+ pre) (hstart : start.Opens file own)
    (hf : ∀ span, span.Over file own → Lays file pre r (f span) Q) :
    Lays file pre r (spanFrom start >>= f) Q :=
  stay (lays_spanFrom hown hstart) hf

/-- The same where the tokens `own` are those consumed since a count was taken. -/
theorem spanSince (own : List Token) (hstart : start.Opens file own)
    (hf : ∀ span, span.Over file own → Lays file (pre ++ own) r (f span) Q) :
    Lays file (pre ++ own) r (spanSince start pre.length >>= f) Q := by
  have hless : pre.length < (pre ++ own).length := by
    obtain ⟨us, hus, hover⟩ := hstart
    have hpos := List.length_pos_iff.mpr hover.ne_nil
    have hle := hus.length_le
    rw [List.length_append]
    omega
  refine stay (R := fun span => span.Over file own) (look fun c hc => ?_) hf
  rw [if_pos (hless.trans_eq hc.consumed.symm)]
  exact lays_spanFrom (List.suffix_append pre own) hstart

/-- The same for what is made of nodes only: if it has none it stands empty before the next
token. -/
theorem spanSince_nodes {parts : List Part} {ts r' : List Token} (hr : r = ts ++ r')
    (hnext : r ≠ []) (hcover : Cover file parts ts) (hnodes : ∀ p ∈ parts, p.node?.isSome)
    (hstart : ∀ us r', r = us ++ r' → us ≠ [] → start.Opens file us)
    (hf : ∀ span, Node.Lies file ⟨span, parts⟩ ts r' → Lays file (pre ++ ts) r' (f span) Q) :
    Lays file (pre ++ ts) r' (Parser.spanSince start pre.length >>= f) Q := by
  by_cases hnone : ts = []
  · subst hnone hr
    obtain ⟨t, us, rfl⟩ := List.exists_cons_of_ne_nil hnext
    have hspan : start = t.span file := (hstart [t] us rfl nofun).eq_token
    have hlies : Node.Lies file ⟨start.atStart, parts⟩ [] (t :: us) :=
      .inr ⟨rfl, hcover.of_no_tokens hnodes, t, rfl, congrArg Span.atStart hspan⟩
    refine stay (R := (· = start.atStart)) (look fun c hc => ?_) fun _ h => h ▸ hf _ hlies
    rw [if_neg (Nat.not_lt.mpr (by rw [hc.consumed, List.append_nil]))]
    exact .pure ⟨rfl, rfl⟩
  · exact spanSince ts (hstart ts r' hr hnone) fun span hover => hf span (.inl ⟨hcover, hover⟩)

/-- A span from where the tokens `own` begin over the tokens `us` behind them. -/
theorem merge (own : List Token) {us : List Token} (hown : own ++ us <:+ pre)
    (ha : a.Opens file own) (hb : b.Over file us)
    (hf : ∀ span, span.Over file (own ++ us) → Lays file pre r (f span) Q) :
    Lays file pre r (merge a b >>= f) Q := by
  refine stay (R := fun span => span.Over file (own ++ us)) (still fun c s hc => ?_) hf
  obtain ⟨vs, hvs, hover⟩ := ha
  have hmerge : Parser.merge a b = Pure.pure (a.cover b) := by
    have hfile : a.file = b.file := by rw [hover.file_eq, hb.file_eq]
    rw [Parser.merge, show a.merge b = .ok (a.cover b) from if_pos hfile]
    rfl
  refine ⟨a.cover b, s, by rw [hmerge]; rfl, ?_⟩
  have hopens : a.Opens file (own ++ us) := ⟨vs, hvs.trans (List.prefix_append own us), hover⟩
  obtain ⟨first, last, hfirst, hlast, rfl⟩ := hb
  refine hopens.cover (hc.placed.of_infix hown.isInfix) ?_ fun last' hlast' => ?_
  · exact ⟨first, List.mem_append_right own (List.mem_of_mem_head? hfirst), rfl⟩
  · rw [List.getLast?_append, hlast, Option.some_or] at hlast'
    cases hlast'
    rfl

end Spans

section Tokens

variable {kind : Kind}

theorem sees {f : Bool → ParserM β} (htrue : headKind r = kind → Lays file pre r (f true) Q)
    (hfalse : headKind r ≠ kind → Lays file pre r (f false) Q) :
    Lays file pre r (sees kind >>= f) Q := by
  refine stay (R := (· = decide (headKind r = kind)))
    (still fun c s hc => ⟨_, s, (Reads.sees kind).run, ?_⟩) fun found hfound => ?_
  · rw [current_of_rest hc.rest]
  · subst hfound
    by_cases hkind : headKind r = kind
    · rw [decide_eq_true hkind]
      exact htrue hkind
    · rw [decide_eq_false hkind]
      exact hfalse hkind

theorem eat {f : Bool → ParserM β} (hne : kind ≠ .eof)
    (htrue : ∀ t r', r = t :: r' → t.kind = kind →
      Lays file (pre ++ [t]) r' (f true) fun b vs r'' => Q b (t :: vs) r'')
    (hfalse : headKind r ≠ kind → Lays file pre r (f false) Q) :
    Lays file pre r (eat kind >>= f) Q := by
  by_cases hkind : headKind r = kind
  · have heat : Lays file pre r (Parser.eat kind) fun found ts r' =>
        found = true ∧ ∃ t, t.kind = kind ∧ r = t :: r' ∧ ts = [t] := by
      intro c s found c' s' ts hc hrun _ hpasses
      obtain ⟨t, r', rfl⟩ := List.exists_cons_of_ne_nil hc.ne_nil
      have hcurrent : c.current = kind := (current_of_rest hc.rest).trans hkind
      have hadvance : ((Parser.eat kind).task c).run s = ((true, c.advance), s) := by
        show ((if c.current = kind then (true, c.advance) else (false, c)), s) = _
        rw [if_pos hcurrent]
      cases hrun.symm.trans hadvance
      have hkind' : t.kind = kind := hkind
      have hopener := Cursor.Passes.opener hc.rest (hkind' ▸ hne)
      exact ⟨rfl, t, hkind', by rw [← hc.rest]; exact hopener.rest, hpasses.eq hopener⟩
    refine heat.bind fun found us r' _ h => ?_
    obtain ⟨rfl, t, ht, hr, rfl⟩ := h
    exact htrue t r' hr ht
  · refine stay (R := (· = false)) (still fun c s hc => ⟨false, s, ?_, rfl⟩) fun found hfound => ?_
    · exact (Reads.eat_other (by rwa [current_of_rest hc.rest])).run
    · exact hfound ▸ hfalse hkind

/-- After a step that consumes one token. -/
theorem single {f : α → ParserM β}
    (hx : Lays file pre r x fun _ us r' => ∃ t, us = [t] ∧ r = t :: r' ∧ t.kind = kind)
    (hf : ∀ a t r', r = t :: r' → t.kind = kind →
      Lays file (pre ++ [t]) r' (f a) fun b vs r'' => Q b (t :: vs) r'') :
    Lays file pre r (x >>= f) Q := by
  refine hx.bind fun a us r' _ ⟨t, hus, hr, ht⟩ => ?_
  subst hus
  exact hf a t r' hr ht

theorem take {f : Unit → ParserM β} (hkind : headKind r = kind) (hne : kind ≠ .eof)
    (hf : ∀ t r', r = t :: r' → t.kind = kind →
      Lays file (pre ++ [t]) r' (f ()) fun b vs r'' => Q b (t :: vs) r'') :
    Lays file pre r (take kind >>= f) Q := by
  have htake : Lays file pre r (Parser.take kind) fun _ us r' =>
      ∃ t, us = [t] ∧ r = t :: r' ∧ t.kind = kind :=
    eat hne (fun t r' hr ht => .pure ⟨t, rfl, hr, ht⟩) fun hother => absurd hkind hother
  exact htake.single fun _ => hf

theorem expect {f : Unit → ParserM β} (hne : kind ≠ .eof)
    (hf : ∀ t r', r = t :: r' → t.kind = kind →
      Lays file (pre ++ [t]) r' (f ()) fun b vs r'' => Q b (t :: vs) r'') :
    Lays file pre r (expect kind >>= f) Q := by
  have hexpect : Lays file pre r (Parser.expect kind) fun _ us r' =>
      ∃ t, us = [t] ∧ r = t :: r' ∧ t.kind = kind := by
    refine eat hne (fun t r' hr ht => .pure ⟨t, rfl, hr, ht⟩) fun _ => current ?_
    exact told fun _ _ => List.cons_ne_nil _ _
  exact hexpect.single fun _ => hf

theorem skipUntil {stop : Kind → Bool} {f : Unit → ParserM β}
    (hf : ∀ ts r', r = ts ++ r' → (∀ t ∈ ts, stop t.kind = false) →
      Lays file (pre ++ ts) r' (f ()) fun b vs r'' => Q b (ts ++ vs) r'') :
    Lays file pre r (skipUntil stop >>= f) Q := by
  have hskip : Lays file pre r (Parser.skipUntil stop) fun _ ts _ =>
      ∀ t ∈ ts, stop t.kind = false := by
    intro c s u c' s' ts _ hrun _ hpasses
    cases hrun
    intro t ht
    rw [hpasses.eq (Cursor.Passes.skipUntil c stop)] at ht
    have hpassed := List.mem_takeWhile_imp ht
    rw [Bool.and_eq_true, Bool.not_eq_true'] at hpassed
    exact hpassed.2
  exact hskip.bind fun _ ts r' hr hts => hf ts r' hr hts

end Tokens

section Parts

variable {kind : Kind} {Q : Option α → List Token → List Token → Prop}

/-- The next token as a name. -/
theorem nameAt {c : Cursor} (hc : c.Between file pre r) (heof : headKind r ≠ .eof) :
    Lays file pre r (nameAt c) fun i ts r' =>
      ∃ t, ts = [t] ∧ r = t :: r' ∧ i.span = t.span file := by
  have hcurrent : c.current = headKind r := current_of_rest hc.rest
  refine intern fun i => take hcurrent.symm (hcurrent ▸ heof) fun t r' hr _ => .pure ?_
  exact ⟨t, rfl, hr, currentSpan_of_rest (hc.rest.trans hr) hc.file⟩

theorem nameOr {missing : Kind → SyntaxError} :
    Lays file pre r (nameOr missing) fun i ts _ => i.node.Over file ts := by
  refine look fun c hc => ?_
  by_cases hkind : c.current.isIdentifier = true
  · rw [if_pos hkind]
    rw [current_of_rest hc.rest] at hkind
    have heof : headKind r ≠ .eof := by
      intro heof
      rw [heof] at hkind
      cases hkind
    refine (nameAt hc heof).mono fun i ts r' _ ⟨t, hts, hr, hspan⟩ => ?_
    subst hts hr
    exact .leaf hkind hspan
  · rw [if_neg hkind]
    exact report

theorem unlessAt (hnone : headKind r = kind → Q none [] r)
    (hsome : headKind r ≠ kind → Lays file pre r x fun a => Q (some a)) :
    Lays file pre r (unlessAt kind x) Q :=
  sees (fun hkind => .pure (hnone hkind)) fun hkind => map (hsome hkind)

theorem whenAt (hnone : headKind r ≠ kind → Q none [] r)
    (hsome : headKind r = kind → Lays file pre r x fun a => Q (some a)) :
    Lays file pre r (whenAt kind x) Q :=
  sees (fun hkind => map (hsome hkind)) fun hkind => .pure (hnone hkind)

theorem after (hne : kind ≠ .eof) (hnone : headKind r ≠ kind → Q none [] r)
    (hsome : ∀ t r', r = t :: r' → t.kind = kind →
      Lays file (pre ++ [t]) r' x fun a ts => Q (some a) (t :: ts)) :
    Lays file pre r (after kind x) Q :=
  eat hne (fun t r' hr ht => map (hsome t r' hr ht)) fun hkind => .pure (hnone hkind)

end Parts

section Items

variable {kind : Kind}

theorem moreItems {node : α → Node}
    (hitem : ∀ pre r, Lays file pre r x fun a ts r' => Leads file [(node a).part] ts r') :
    Lays file pre r (moreItems x) fun as ts r' => Leads file (afterCommas (as.map node)) ts r' := by
  suffices hitems : ∀ bound pre r, Lays file pre r (commaItems x bound) fun as ts r' =>
      Leads file (afterCommas (as.map node)) ts r' from remaining (hitems _ pre r)
  intro bound
  induction bound with
  | zero => exact fun pre r => .pure .nil
  | succ bound ih =>
    intro pre r
    refine eat (by decide) (fun comma r₁ _ hcomma => ?_) fun _ => .pure .nil
    refine (hitem _ r₁).bind fun a us r₂ _ ha => (ih _ r₂).bind fun as vs r₃ hr₃ has => .pure ?_
    subst hr₃
    rw [List.append_nil]
    have hmark : Cover file [.mark .comma] [comma] := .mark hcomma .nil
    exact (Leads.of_cover hmark).append (ha.append has)

theorem itemsAt {parts : α → List Part}
    (hitem : ∀ pre r, headKind r = kind → Lays file pre r x fun a ts _ => Cover file (parts a) ts) :
    Lays file pre r (itemsAt kind x) fun as ts _ => Cover file (as.flatMap parts) ts := by
  suffices hitems : ∀ bound pre r, Lays file pre r (itemsWhile kind x bound) fun as ts _ =>
      Cover file (as.flatMap parts) ts from remaining (hitems _ pre r)
  intro bound
  induction bound with
  | zero => exact fun pre r => .pure .nil
  | succ bound ih =>
    intro pre r
    refine sees (fun hkind => ?_) fun _ => .pure .nil
    refine (hitem _ r hkind).bind fun a us r₁ _ ha => (ih _ r₁).bind fun as vs r₂ _ has => .pure ?_
    rw [List.append_nil]
    exact ha.append has

theorem nodesAt {node : α → Node}
    (hitem : ∀ pre r, headKind r = kind → Lays file pre r x fun a ts _ => (node a).Over file ts) :
    Lays file pre r (Parser.itemsAt kind x) fun as ts _ =>
      Cover file (as.map fun a => (node a).part) ts := by
  have hitems : Lays file pre r (Parser.itemsAt kind x) fun as ts _ =>
      Cover file (as.flatMap fun a => [(node a).part]) ts :=
    itemsAt fun pre r hkind => (hitem pre r hkind).mono fun _ _ _ _ h => .sole h
  refine hitems.mono fun as ts _ _ has => ?_
  rwa [List.map_eq_flatMap]

end Items

end Lays

end Parser

end Netlist
