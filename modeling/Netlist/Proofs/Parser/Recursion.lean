import Netlist.Proofs.Parser.Blind
import Mathlib.Logic.Function.Iterate

/-!
Loops and nested parsers as recursions: one step, written over what the next step will do. A
recursion comes to an end if every way back into it leads past a token that has been consumed. Then
the tokens ahead bound the steps taken: however the step is cut off behind more than these, the cut
is never reached. The parsers that count their steps are such cuts.
-/
namespace Netlist.Parser

variable {ι α β : Type} {c d : Cursor} {n : Nat}

theorem Cursor.Passes.started {ts : List Token} (h : c.Passes ts d) (hc : c.Started) :
    d.Started := by
  intro hnone
  rw [h.prev, Option.or_eq_none_iff, List.getLast?_eq_none_iff] at hnone
  rw [h.consumed, hc hnone.2, hnone.1]
  rfl

theorem Cursor.Passes.length_le {ts : List Token} (h : c.Passes ts d) :
    d.rest.length ≤ c.rest.length := by
  rw [h.rest, List.length_append]
  exact Nat.le_add_left _ _

/-- Two parsers do the same from `c` on. -/
def Same (c : Cursor) (x y : ParserM α) : Prop := ∀ s, (x.task c).run s = (y.task c).run s

/-- Two parsers do the same where fewer than `n` tokens are ahead. -/
def Agree (n : Nat) (x y : ParserM α) : Prop := ∀ c, c.Started → c.rest.length < n → Same c x y

namespace Same

variable {x y z : ParserM α} {f g : α → ParserM β} {kind : Kind}

theorem refl (x : ParserM α) : Same c x x := fun _ => rfl

theorem symm (h : Same c x y) : Same c y x := fun s => (h s).symm

theorem trans (h : Same c x y) (h' : Same c y z) : Same c x z := fun s => (h s).trans (h' s)

theorem bind (hx : Same c x y) (hf : ∀ a d ts, c.Passes ts d → Same d (f a) (g a)) :
    Same c (x >>= f) (y >>= g) := by
  intro s
  rcases hrun : (x.task c).run s with ⟨⟨a, d⟩, t⟩
  obtain ⟨ts, hpasses⟩ := Cursor.Passes.exists_run x c s
  rw [hrun] at hpasses
  rw [run_bind hrun, run_bind ((hx s).symm.trans hrun)]
  exact hf a d ts hpasses t

/-- After a look at the tokens ahead. -/
theorem seen {a : α} (hx : ∀ s, Reads x c s [] a c s) (hf : Same c (f a) (g a)) :
    Same c (x >>= f) (x >>= g) := by
  intro s
  rw [run_bind (hx s).run, run_bind (hx s).run]
  exact hf s

/-- After a parser that consumes nothing the same tokens are ahead. -/
theorem kept (hx : Keeps x) (hf : ∀ a d, d.rest = c.rest → (c.Started → d.Started) →
    Same d (f a) (g a)) : Same c (x >>= f) (x >>= g) := by
  intro s
  rcases hrun : (x.task c).run s with ⟨⟨a, d⟩, t⟩
  obtain ⟨ts, hpasses⟩ := Cursor.Passes.exists_run x c s
  have hsame := hx c s
  rw [hrun] at hpasses hsame
  rw [run_bind hrun, run_bind hrun]
  exact hf a d hsame hpasses.started t

/-- After a parser that consumes a token the two need to agree only where fewer are ahead. -/
theorem consumed (hc : c.Started) (hx : ∀ s, ((x.task c).run s).1.2.rest.length < c.rest.length)
    (hf : ∀ a, Agree c.rest.length (f a) (g a)) : Same c (x >>= f) (x >>= g) := by
  intro s
  rcases hrun : (x.task c).run s with ⟨⟨a, d⟩, t⟩
  obtain ⟨ts, hpasses⟩ := Cursor.Passes.exists_run x c s
  have hless := hx s
  rw [hrun] at hpasses hless
  rw [run_bind hrun, run_bind hrun]
  exact hf a d (hpasses.started hc) hless t

theorem eats (hc : c.Started) (hx : Eats c.rest x) (hf : ∀ a, Agree c.rest.length (f a) (g a)) :
    Same c (x >>= f) (x >>= g) := consumed hc (fun s => hx c s rfl) hf

theorem take {f g : Unit → ParserM β} (hc : c.Started) (hkind : c.current = kind)
    (heof : kind ≠ .eof) (hf : Agree c.rest.length (f ()) (g ())) :
    Same c (Parser.take kind >>= f) (Parser.take kind >>= g) :=
  eats hc (.take ((current_of_rest rfl).symm.trans hkind) heof) fun _ => hf

theorem sees {f g : Bool → ParserM β} (htrue : c.current = kind → Same c (f true) (g true))
    (hfalse : c.current ≠ kind → Same c (f false) (g false)) :
    Same c (Parser.sees kind >>= f) (Parser.sees kind >>= g) := by
  refine seen (fun _ => .sees kind) ?_
  by_cases hkind : c.current = kind
  · rw [decide_eq_true hkind]
    exact htrue hkind
  · rw [decide_eq_false hkind]
    exact hfalse hkind

theorem eat {f g : Bool → ParserM β} (hc : c.Started) (heof : kind ≠ .eof)
    (htrue : Agree c.rest.length (f true) (g true))
    (hfalse : Same c (f false) (g false)) :
    Same c (Parser.eat kind >>= f) (Parser.eat kind >>= g) := by
  intro s
  by_cases hkind : c.current = kind
  · have heats : Eats c.rest (Parser.eat kind) :=
      .eat ((current_of_rest rfl).symm.trans hkind) heof
    have hrun : ((Parser.eat kind).task c).run s = ((true, c.advance), s) := by
      show ((if c.current = kind then (true, c.advance) else (false, c)), s) = _
      rw [if_pos hkind]
    have hless := heats c s rfl
    obtain ⟨ts, hpasses⟩ := Cursor.Passes.advance c
    rw [hrun] at hless
    rw [run_bind hrun, run_bind hrun]
    exact htrue c.advance (hpasses.started hc) hless s
  · rw [run_bind (Reads.eat_other hkind).run, run_bind (Reads.eat_other hkind).run]
    exact hfalse s

end Same

namespace Agree

variable {m : Nat} {x y : ParserM α} {f g : α → ParserM β}

theorem refl (x : ParserM α) : Agree n x x := fun _ _ _ => .refl x

theorem mono (h : Agree n x y) (hle : m ≤ n) : Agree m x y :=
  fun c hc hless => h c hc (Nat.lt_of_lt_of_le hless hle)

/-- Parsers go forward only, so fewer tokens stay fewer. -/
theorem bind (hx : Agree n x y) (hf : ∀ a, Agree n (f a) (g a)) : Agree n (x >>= f) (y >>= g) :=
  fun c hc hless => (hx c hc hless).bind fun a d _ hpasses =>
    hf a d (hpasses.started hc) (Nat.lt_of_le_of_lt hpasses.length_le hless)

theorem next (x : ParserM α) (hf : ∀ a, Agree n (f a) (g a)) : Agree n (x >>= f) (x >>= g) :=
  (refl x).bind hf

theorem map (φ : α → β) (hx : Agree n x y) : Agree n (φ <$> x) (φ <$> y) :=
  hx.bind fun _ => .refl _

theorem unlessAt (kind : Kind) (hx : Agree n x y) :
    Agree n (unlessAt kind x) (unlessAt kind y) := by
  refine .next _ fun found => ?_
  split
  · exact .refl _
  · exact hx.map some

theorem whenAt (kind : Kind) (hx : Agree n x y) : Agree n (whenAt kind x) (whenAt kind y) := by
  refine .next _ fun found => ?_
  split
  · exact hx.map some
  · exact .refl _

theorem moreItems (hx : Agree n x y) : Agree n (moreItems x) (moreItems y) := by
  refine .next _ fun bound => ?_
  induction bound with
  | zero => exact .refl _
  | succ bound ih =>
    refine .next _ fun found => ?_
    split
    · exact hx.bind fun _ => ih.bind fun _ => .refl _
    · exact .refl _

end Agree

/-- A parser that is said in terms of itself. -/
structure Recursion (ι α : Type) where
  /-- What is done, where `next` stands for what is done behind it. -/
  step : (next : ι → ParserM α) → ι → ParserM α
  parser : ι → ParserM α

namespace Recursion

/-- Every way back leads past a token that has been consumed. -/
def Founded (r : Recursion ι α) : Prop :=
  ∀ c, c.Started → ∀ next next' : ι → ParserM α, (∀ i, Agree c.rest.length (next i) (next' i)) →
    ∀ i, Same c (r.step next i) (r.step next' i)

/-- The parser does what its steps say, and does it in no more of them than tokens are ahead and one
for their end: whatever stands behind these, it is not reached. -/
structure Ends (r : Recursion ι α) : Prop where
  step : ∀ c, c.Started → ∀ i, Same c (r.parser i) (r.step r.parser i)
  bounded : ∀ c, c.Started → ∀ steps, c.rest.length < steps → ∀ beyond i,
    Same c (r.step^[steps] beyond i) (r.parser i)

/-- A parser that counts its steps. At most so many of them are taken, and none is needed where no
token is ahead. -/
structure Counts (r : Recursion ι α) (within : Nat → ι → ParserM α) : Prop where
  zero : ∀ c, c.Started → c.rest = [] → ∀ next i, Same c (within 0 i) (r.step next i)
  succ : ∀ c, c.Started → ∀ bound, c.rest.length ≤ bound + 1 →
    ∀ i, Same c (within (bound + 1) i) (r.step (within bound) i)

variable {r : Recursion ι α} {within : Nat → ι → ParserM α}

/-- A count that is no less than the tokens ahead lets as many steps be taken as there are. -/
theorem Founded.within_same (h : r.Founded) (hcounts : r.Counts within) (hc : c.Started)
    {bound steps : Nat} (hbound : c.rest.length ≤ bound) (hsteps : c.rest.length < steps)
    (beyond : ι → ParserM α) (i : ι) : Same c (within bound i) (r.step^[steps] beyond i) := by
  induction bound generalizing c steps i with
  | zero =>
    obtain ⟨steps, rfl⟩ := Nat.exists_eq_succ_of_ne_zero (Nat.ne_zero_of_lt hsteps)
    rw [Function.iterate_succ_apply']
    exact hcounts.zero c hc (List.length_eq_zero_iff.mp (Nat.le_zero.mp hbound)) _ i
  | succ bound ih =>
    obtain ⟨steps, rfl⟩ := Nat.exists_eq_succ_of_ne_zero (Nat.ne_zero_of_lt hsteps)
    rw [Function.iterate_succ_apply']
    refine (hcounts.succ c hc bound hbound i).trans (h c hc _ _ ?_ i)
    exact fun j d hd hless => ih hd (by omega) (by omega) j

/-- All counts that are large enough are alike. -/
theorem Founded.within_alike (h : r.Founded) (hcounts : r.Counts within) (hc : c.Started)
    {bound bound' : Nat} (hbound : c.rest.length ≤ bound) (hbound' : c.rest.length ≤ bound')
    (i : ι) : Same c (within bound i) (within bound' i) :=
  (h.within_same hcounts hc hbound (Nat.lt_succ_self _) r.parser i).trans
    (h.within_same hcounts hc hbound' (Nat.lt_succ_self _) r.parser i).symm

/-- A founded recursion ends if its parser counts the tokens ahead. -/
theorem Founded.ends (h : r.Founded) (hcounts : r.Counts within)
    (hparser : ∀ i, r.parser i = do within (← remaining) i) : r.Ends := by
  have hwithin {d : Cursor} (i : ι) : Same d (r.parser i) (within d.rest.length i) := by
    intro s
    rw [hparser, run_bind Reads.remaining.run]
  have hbounded {d : Cursor} (hd : d.Started) {steps : Nat} (hsteps : d.rest.length < steps)
      (beyond : ι → ParserM α) (i : ι) : Same d (r.step^[steps] beyond i) (r.parser i) :=
    ((hwithin i).trans (h.within_same hcounts hd (Nat.le_refl _) hsteps beyond i)).symm
  refine ⟨fun c hc i => ?_, fun c hc steps hsteps beyond i => hbounded hc hsteps beyond i⟩
  have hunfolded := (hbounded hc (Nat.lt_succ_self _) r.parser i).symm
  rw [Function.iterate_succ_apply'] at hunfolded
  refine hunfolded.trans (h c hc _ _ ?_ i)
  exact fun j d hd hless => hbounded hd hless r.parser j

end Recursion

end Netlist.Parser
