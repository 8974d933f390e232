import Netlist.Proofs.Parser.Reads

/-!
Parsers do not see what stands behind the tokens they consume and the one they stop at. Where two
streams begin with the same tokens, a parser that stops before the end of these does the same on
both. Bounds taken from the length of a stream may differ, since each round of a loop consumes one
of the common tokens, so the rules relate two parsers and tell how many of these tokens are left.
-/
namespace Netlist.Parser

variable {α β : Type}

/-- Two ways for a stream to go on. -/
structure Fork where
  left : List Token
  right : List Token

/-- The same cursor on the other way, with the common tokens `ts` ahead. -/
def Fork.turn (K : Fork) (ts : List Token) (c : Cursor) : Cursor := { c with rest := ts ++ K.right }

/-- From `c` on, with the common tokens `ts` ahead, `y` does on the right what `x` does on the left,
if `x` stops before the end of these. -/
def BlindFrom (K : Fork) (ts : List Token) (c : Cursor) (x y : ParserM α) : Prop :=
  ∀ s a c' t us, (x.task c).run s = ((a, c'), t) → c'.rest = us ++ K.left → us ≠ [] →
    (y.task (K.turn ts c)).run s = ((a, K.turn us c'), t)

/-- The same from every cursor with these tokens ahead. -/
def Blind (K : Fork) (ts : List Token) (x y : ParserM α) : Prop :=
  ∀ c, c.rest = ts ++ K.left → BlindFrom K ts c x y

/-- The parser consumes a token where these are ahead. -/
def Eats (r : List Token) (x : ParserM α) : Prop :=
  ∀ c s, c.rest = r → ((x.task c).run s).1.2.rest.length < r.length

/-- The parser consumes nothing. -/
def Keeps (x : ParserM α) : Prop := ∀ c s, ((x.task c).run s).1.2.rest = c.rest

theorem Silent.keeps {x : ParserM α} (h : Silent x) : Keeps x := by
  intro c s
  obtain ⟨a, c', hreads⟩ := h c s
  rw [hreads.run]
  exact hreads.rest.symm

theorem keeps_look : Keeps look := fun _ _ => rfl

theorem keeps_intern (text : String) : Keeps (intern text) := fun _ _ => rfl

theorem keeps_reportAt (e : SyntaxError) (span : Span) : Keeps (reportAt e span) := fun _ _ => rfl

theorem Keeps.bind {x : ParserM α} {f : α → ParserM β} (hx : Keeps x) (hf : ∀ a, Keeps (f a)) :
    Keeps (x >>= f) := by
  intro c s
  rcases hrun : (x.task c).run s with ⟨⟨a, c'⟩, t⟩
  have hkept := hx c s
  rw [hrun] at hkept
  rw [run_bind hrun, hf a c' t, hkept]

theorem keeps_report (e : SyntaxError) : Keeps (report e) :=
  Silent.currentSpan.keeps.bind fun span => keeps_reportAt e span

namespace Eats

variable {r : List Token} {x : ParserM α} {f : α → ParserM β} {kind : Kind}

/-- What comes later consumes no less. -/
theorem bind (hx : Eats r x) : Eats r (x >>= f) := by
  intro c s hrest
  rcases hrun : (x.task c).run s with ⟨⟨a, c'⟩, t⟩
  obtain ⟨us, hpasses⟩ := Cursor.Passes.exists_run (f a) c' t
  have hless := hx c s hrest
  rw [hrun] at hless
  have hlength := congrArg List.length hpasses.rest
  rw [List.length_append] at hlength
  rw [run_bind hrun]
  dsimp only at hless
  omega

theorem kept (hx : Keeps x) (hf : ∀ a, Eats r (f a)) : Eats r (x >>= f) := by
  intro c s hrest
  rcases hrun : (x.task c).run s with ⟨⟨a, c'⟩, t⟩
  have hsame := hx c s
  rw [hrun] at hsame
  rw [run_bind hrun]
  exact hf a c' t (hsame.trans hrest)

theorem look {f : Cursor → ParserM β} (hf : ∀ c, c.rest = r → Eats r (f c)) :
    Eats r (Parser.look >>= f) := fun c s hrest => hf c hrest c s hrest

theorem eat (hkind : headKind r = kind) (hne : kind ≠ .eof) : Eats r (eat kind) := by
  intro c s hrest
  have hcurrent : c.current = kind := (current_of_rest hrest).trans hkind
  obtain ⟨t, r', rfl⟩ : ∃ t r', r = t :: r' := by
    cases r with
    | nil => exact absurd hkind.symm hne
    | cons t r' => exact ⟨t, r', rfl⟩
  have heof : t.kind ≠ .eof := fun heof => hne (hkind.symm.trans heof)
  show (if c.current = kind then (true, c.advance) else (false, c)).2.rest.length < _
  rw [if_pos hcurrent, rest_advance hrest heof, List.length_cons]
  exact Nat.lt_succ_self _

theorem take (hkind : headKind r = kind) (hne : kind ≠ .eof) : Eats r (take kind) :=
  (eat hkind hne).bind

theorem expect (hkind : headKind r = kind) (hne : kind ≠ .eof) : Eats r (expect kind) :=
  (eat hkind hne).bind

theorem nameAt {c : Cursor} (hcurrent : c.current = headKind r) (hne : headKind r ≠ .eof) :
    Eats r (nameAt c) :=
  kept (keeps_intern _) fun _ => (take hcurrent.symm (hcurrent ▸ hne)).bind

theorem nameOr {missing : Kind → SyntaxError} (hname : (headKind r).isIdentifier = true) :
    Eats r (nameOr missing) := by
  apply look
  intro c hrest
  have hcurrent : c.current = headKind r := current_of_rest hrest
  rw [hcurrent, if_pos hname]
  apply nameAt hcurrent
  intro heof
  rw [heof] at hname
  cases hname

theorem sees {f : Bool → ParserM β} (hkind : headKind r = kind) (hf : Eats r (f true)) :
    Eats r (sees kind >>= f) := by
  intro c s hrest
  have hsees : ((Parser.sees kind).task c).run s = ((true, c), s) := by
    rw [(Reads.sees kind).run, decide_eq_true ((current_of_rest hrest).trans hkind)]
  rw [run_bind hsees]
  exact hf c s hrest

theorem itemsAt (hkind : headKind r = kind) (hne : kind ≠ .eof) (hx : Eats r x) :
    Eats r (itemsAt kind x) := by
  intro c s hrest
  rw [Parser.itemsAt, run_bind Reads.remaining.run]
  cases r with
  | nil => exact absurd hkind.symm hne
  | cons t r =>
    rw [hrest, List.length_cons, itemsWhile]
    exact sees hkind hx.bind c s hrest

end Eats

section Turns

variable {K : Fork} {ts us : List Token} {c : Cursor}

private theorem suffix_of_append {vs left : List Token} (h : ts ++ left = vs ++ (us ++ left)) :
    us <:+ ts := by
  rw [← List.append_assoc] at h
  exact ⟨vs, (List.append_cancel_right h).symm⟩

theorem headKind_append (hne : ts ≠ []) (r : List Token) : headKind (ts ++ r) = headKind ts := by
  cases ts with
  | nil => exact absurd rfl hne
  | cons t ts => rfl

theorem current_turn (hne : ts ≠ []) : (K.turn ts c).current = headKind ts :=
  (current_of_rest rfl).trans (headKind_append hne K.right)

theorem current_common (hrest : c.rest = ts ++ K.left) (hne : ts ≠ []) : c.current = headKind ts :=
  (current_of_rest hrest).trans (headKind_append hne K.left)

theorem currentSpan_turn (hrest : c.rest = ts ++ K.left) (hne : ts ≠ []) :
    (K.turn ts c).currentSpan = c.currentSpan := by
  cases ts with
  | nil => exact absurd rfl hne
  | cons t ts =>
    rw [Cursor.currentSpan, Cursor.currentSpan, hrest]
    rfl

theorem currentText_turn (hrest : c.rest = ts ++ K.left) (hne : ts ≠ []) :
    (K.turn ts c).currentText = c.currentText := by
  cases ts with
  | nil => exact absurd rfl hne
  | cons t ts =>
    rw [Cursor.currentText, Cursor.currentText, hrest]
    rfl

theorem prevSpan_turn (hrest : c.rest = ts ++ K.left) (hne : ts ≠ []) :
    (K.turn ts c).prevSpan = c.prevSpan := by
  rw [Cursor.prevSpan, Cursor.prevSpan, currentSpan_turn hrest hne]
  rfl

end Turns

namespace Blind

variable {K : Fork} {ts : List Token} {x y : ParserM α} {f g : α → ParserM β} {kind : Kind}

/-- Behind the common tokens nothing is asked. -/
theorem nil : Blind K [] x y := by
  intro c hrest s a c' t us hrun hrest' hne
  obtain ⟨vs, hpasses⟩ := Cursor.Passes.exists_run x c s
  have hsame := hpasses.rest
  rw [hrun, hrest, hrest'] at hsame
  exact absurd (List.suffix_nil.mp (suffix_of_append hsame)) hne

theorem of_length (h : ts.length ≤ 0) : Blind K ts x y := by
  rw [List.length_eq_zero_iff.mp (Nat.le_zero.mp h)]
  exact nil

theorem of_ne_nil (h : ts ≠ [] → Blind K ts x y) : Blind K ts x y := by
  cases ts with
  | nil => exact nil
  | cons t ts => exact h (List.cons_ne_nil t ts)

/-- A parser that does not look ahead at all. -/
theorem steady (h : ∀ (c : Cursor) (s : Session), ∃ a errors misuse t, ∀ r,
      (x.task { c with rest := r }).run s =
        ((a, { c with rest := r, errors := errors, misuse := misuse }), t)) : Blind K ts x x := by
  intro c hrest s b c' u us hrun hrest' _
  obtain ⟨a, errors, misuse, t, hsteady⟩ := h c s
  have hleft := hsteady (ts ++ K.left)
  rw [← hrest] at hleft
  rw [hleft] at hrun
  cases hrun
  rw [List.append_cancel_right (hrest.symm.trans hrest')]
  exact hsteady (us ++ K.right)

theorem pure (a : α) : Blind K ts (Pure.pure a) (Pure.pure a) :=
  steady fun c s => ⟨a, c.errors, c.misuse, s, fun _ => rfl⟩

theorem intern (text : String) : Blind K ts (intern text) (intern text) :=
  steady fun c _ => ⟨_, c.errors, c.misuse, _, fun _ => rfl⟩

theorem reportAt (e : SyntaxError) (span : Span) :
    Blind K ts (reportAt e span) (reportAt e span) :=
  steady fun c _ => ⟨_, c.errors + 1, c.misuse, _, fun _ => rfl⟩

theorem demand (a : α) (r : Except Misuse α) : Blind K ts (demand a r) (demand a r) := by
  cases r with
  | ok b => exact pure b
  | error m => exact steady fun c s => ⟨a, c.errors, c.misuse.or (some m), s, fun _ => rfl⟩

/-- One parser after another: on the way some of the common tokens are left. -/
private theorem bindFrom {c : Cursor} (hx : Blind K ts x y) (hrest : c.rest = ts ++ K.left)
    (hf : ∀ s a c' t vs, (x.task c).run s = ((a, c'), t) → c'.rest = vs ++ K.left → vs <:+ ts →
      Blind K vs (f a) (g a)) : BlindFrom K ts c (x >>= f) (y >>= g) := by
  intro s b c'' u us hrun hrest'' hne
  rcases hfirst : (x.task c).run s with ⟨⟨a, c'⟩, t⟩
  rw [run_bind hfirst] at hrun
  obtain ⟨ws, hpasses⟩ := Cursor.Passes.exists_run x c s
  obtain ⟨vs, hpasses'⟩ := Cursor.Passes.exists_run (f a) c' t
  rw [hfirst] at hpasses
  rw [hrun] at hpasses'
  have hrest' : c'.rest = (vs ++ us) ++ K.left := by
    rw [hpasses'.rest, hrest'', List.append_assoc]
  have hsame := hpasses.rest
  rw [hrest, hrest'] at hsame
  rw [run_bind (hx c hrest s a c' t (vs ++ us) hfirst hrest' (by simp [hne]))]
  exact hf s a c' t (vs ++ us) hfirst hrest' (suffix_of_append hsame) c' hrest' t b c'' u us hrun
    hrest'' hne

theorem bind (hx : Blind K ts x y) (hf : ∀ a vs, vs <:+ ts → Blind K vs (f a) (g a)) :
    Blind K ts (x >>= f) (y >>= g) :=
  fun _ hrest => hx.bindFrom hrest fun _ a _ _ vs _ _ hvs => hf a vs hvs

/-- After a parser that consumes something fewer tokens are ahead. -/
theorem bindEatsFrom {c : Cursor} (hx : Blind K ts x y) (hrest : c.rest = ts ++ K.left)
    (heats : ∀ s, ((x.task c).run s).1.2.rest.length < c.rest.length)
    (hf : ∀ a vs, vs <:+ ts → vs.length < ts.length → Blind K vs (f a) (g a)) :
    BlindFrom K ts c (x >>= f) (y >>= g) := by
  refine hx.bindFrom hrest fun s a c' t vs hrun hrest' hvs => hf a vs hvs ?_
  have hless := heats s
  simp only [hrun, hrest, hrest', List.length_append] at hless
  omega

theorem bindEats (hx : Blind K ts x y) (heats : Eats (ts ++ K.left) x)
    (hf : ∀ a vs, vs <:+ ts → vs.length < ts.length → Blind K vs (f a) (g a)) :
    Blind K ts (x >>= f) (y >>= g) :=
  fun c hrest => hx.bindEatsFrom hrest (fun s => hrest ▸ heats c s hrest) hf

/-- After a parser that consumes nothing the same tokens are ahead. -/
theorem bindKeeps (hx : Blind K ts x y) (hkeeps : Keeps x) (hf : ∀ a, Blind K ts (f a) (g a)) :
    Blind K ts (x >>= f) (y >>= g) := by
  intro c hrest
  refine hx.bindFrom hrest fun s a c' t vs hrun hrest' hvs => ?_
  have hsame := hkeeps c s
  simp only [hrun, hrest, hrest'] at hsame
  rw [List.append_cancel_right hsame]
  exact hf a

theorem map (φ : α → β) (hx : Blind K ts x y) : Blind K ts (φ <$> x) (φ <$> y) :=
  hx.bind fun a _ _ => pure (φ a)

/-- What is done at a cursor may depend on it. -/
theorem lookFrom {f g : Cursor → ParserM β}
    (hf : ∀ c, c.rest = ts ++ K.left → BlindFrom K ts c (f c) (g (K.turn ts c))) :
    Blind K ts (look >>= f) (look >>= g) := hf

theorem look {f g : Cursor → ParserM β}
    (hf : ∀ c, c.rest = ts ++ K.left → Blind K ts (f c) (g (K.turn ts c))) :
    Blind K ts (Parser.look >>= f) (Parser.look >>= g) :=
  lookFrom fun c hrest => hf c hrest c hrest

/-- Looking at the cursor only as far as the next token. -/
theorem observe {φ : Cursor → α}
    (h : ∀ c, c.rest = ts ++ K.left → ts ≠ [] → φ (K.turn ts c) = φ c) :
    Blind K ts (do return φ (← Parser.look)) (do return φ (← Parser.look)) :=
  of_ne_nil fun hne => look fun c hrest => by
    rw [h c hrest hne]
    exact pure _

theorem current {f g : Kind → ParserM β}
    (hf : Blind K ts (f (headKind ts)) (g (headKind ts))) :
    Blind K ts (current >>= f) (current >>= g) := by
  apply of_ne_nil
  intro hne c hrest s b c' t us hrun hrest' hus
  rw [run_bind Reads.current.run, current_common hrest hne] at hrun
  rw [run_bind Reads.current.run, current_turn hne]
  exact hf c hrest s b c' t us hrun hrest' hus

theorem sees {f g : Bool → ParserM β}
    (htrue : headKind ts = kind → Blind K ts (f true) (g true))
    (hfalse : headKind ts ≠ kind → Blind K ts (f false) (g false)) :
    Blind K ts (sees kind >>= f) (sees kind >>= g) := by
  apply of_ne_nil
  intro hne c hrest s b c' t us hrun hrest' hus
  rw [run_bind (Reads.sees kind).run, current_common hrest hne] at hrun
  rw [run_bind (Reads.sees kind).run, current_turn hne]
  by_cases hkind : headKind ts = kind
  · rw [decide_eq_true hkind] at hrun ⊢
    exact htrue hkind c hrest s b c' t us hrun hrest' hus
  · rw [decide_eq_false hkind] at hrun ⊢
    exact hfalse hkind c hrest s b c' t us hrun hrest' hus

theorem remaining {f g : Nat → ParserM β}
    (hf : ∀ b b', ts.length ≤ b → ts.length ≤ b' → Blind K ts (f b) (g b')) :
    Blind K ts (remaining >>= f) (remaining >>= g) := by
  intro c hrest s b c' t us hrun hrest' hus
  rw [run_bind Reads.remaining.run] at hrun ⊢
  refine hf _ _ ?_ ?_ c hrest s b c' t us hrun hrest' hus
  · rw [hrest, List.length_append]
    exact Nat.le_add_right _ _
  · show _ ≤ (ts ++ K.right).length
    rw [List.length_append]
    exact Nat.le_add_right _ _

/-- Consuming a token takes the next of the common ones. -/
theorem eat {f g : Bool → ParserM β} (heof : kind ≠ .eof)
    (htrue : ∀ t vs, ts = t :: vs → t.kind = kind → Blind K vs (f true) (g true))
    (hfalse : headKind ts ≠ kind → Blind K ts (f false) (g false)) :
    Blind K ts (eat kind >>= f) (eat kind >>= g) := by
  apply of_ne_nil
  intro hne c hrest s b c' t us hrun hrest' hus
  have heat (c : Cursor) : ((Parser.eat kind).task c).run s =
      (if c.current = kind then (true, c.advance) else (false, c), s) := rfl
  have hcurrent := current_common hrest hne
  have hcurrent' : (K.turn ts c).current = headKind ts := current_turn hne
  by_cases hkind : headKind ts = kind
  · obtain ⟨u, vs, rfl⟩ := List.exists_cons_of_ne_nil hne
    have hu : u.kind = kind := hkind
    have hin : u.kind ≠ .eof := fun h => heof (hu.symm.trans h)
    have hleft : ((Parser.eat kind).task c).run s = ((true, c.advance), s) := by
      rw [heat, if_pos (hcurrent.trans hkind)]
    have hright : ((Parser.eat kind).task (K.turn (u :: vs) c)).run s =
        ((true, K.turn vs c.advance), s) := by
      rw [heat, if_pos (hcurrent'.trans hkind)]
      simp only [Fork.turn, Cursor.advance, hrest, List.cons_append, if_neg hin]
    rw [run_bind hleft] at hrun
    rw [run_bind hright]
    exact htrue u vs rfl hu c.advance (rest_advance hrest hin) s b c' t us hrun hrest' hus
  · have hstays (c : Cursor) (h : c.current = headKind ts) :
        ((Parser.eat kind).task c).run s = ((false, c), s) := by
      rw [heat, if_neg (h ▸ hkind)]
    rw [run_bind (hstays c hcurrent)] at hrun
    rw [run_bind (hstays _ hcurrent')]
    exact hfalse hkind c hrest s b c' t us hrun hrest' hus

/-- Skipping stops at one of the common tokens or leaves none of them. -/
theorem skipUntil (stop : Kind → Bool) : Blind K ts (skipUntil stop) (skipUntil stop) := by
  intro c hrest s u c' t us hrun hrest' hus
  cases hrun
  generalize hpasses : (fun t : Token => decide (t.kind ≠ .eof) && !stop t.kind) = passes
  have hskip (c : Cursor) : c.skipUntil stop = { c with
      prev := (c.rest.takeWhile passes).getLast?.or c.prev
      rest := c.rest.dropWhile passes
      consumed := c.consumed + (c.rest.takeWhile passes).length } := by
    rw [← hpasses]
    rfl
  have hstops : ∃ t ∈ ts, ¬ passes t = true := by
    by_contra hnone
    push Not at hnone
    rw [hskip, hrest] at hrest'
    have hlength := congrArg List.length hrest'
    dsimp only at hlength
    rw [List.dropWhile_append_of_pos hnone, List.length_append] at hlength
    have hless := List.length_dropWhile_le passes K.left
    have hpos := List.length_pos_iff.mpr hus
    omega
  obtain ⟨u, hu, hstop⟩ := hstops
  have htake (r : List Token) : (ts ++ r).takeWhile passes = ts.takeWhile passes := by
    rw [List.takeWhile_append, if_neg]
    intro hall
    have hfull := (List.takeWhile_prefix passes).eq_of_length hall
    exact hstop (List.takeWhile_eq_self_iff.mp hfull u hu)
  have hdrop (r : List Token) : (ts ++ r).dropWhile passes = ts.dropWhile passes ++ r := by
    rw [List.dropWhile_append, if_neg]
    intro hempty
    rw [List.isEmpty_iff, List.dropWhile_eq_nil_iff] at hempty
    exact hstop (hempty u hu)
  have hus' : us = ts.dropWhile passes := by
    rw [hskip, hrest] at hrest'
    dsimp only at hrest'
    rw [hdrop] at hrest'
    exact (List.append_cancel_right hrest').symm
  show ((((), (K.turn ts c).skipUntil stop), s) : (Unit × Cursor) × Session) = _
  rw [hskip, hskip c, hus']
  simp only [Fork.turn, hrest, htake, hdrop]

end Blind

end Netlist.Parser
