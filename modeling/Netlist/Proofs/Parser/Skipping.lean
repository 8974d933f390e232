import Netlist.Parser.Item
import Netlist.Proofs.Parser.Anatomy

/-!
How far an item that is passed over goes. The parser counts brackets and blocks apart from each
other and ends at a semicolon or with a block when both counts are zero. Where brackets and blocks
match, that is at the end of the item as it is written, and of what follows it with `else`. Whatever
the tokens are, it leaves the words that open and close units, and those that close a block it has
not opened.
-/
namespace Netlist.Parser

open Syntax

/-- The part that a token plays for an item that is passed over. -/
inductive Role where
  /-- Nothing goes past it. -/
  | stop
  | opensBracket
  | closesBracket
  | opensBlock
  | closesBlock
  | semicolon
  | plain
  deriving DecidableEq

/-- The part of a kind behind one of kind `before`. A word that only refers to a block is plain. -/
def role (before : Kind) : Kind → Role
  | .eof => .stop
  | .unitStart _ => .stop
  | .unitEnd _ => .stop
  | .leftParen => .opensBracket
  | .leftBracket => .opensBracket
  | .leftBrace => .opensBracket
  | .attrOpen => .opensBracket
  | .rightParen => .closesBracket
  | .rightBracket => .closesBracket
  | .rightBrace => .closesBracket
  | .attrClose => .closesBracket
  | .semicolon => .semicolon
  | .blockEnd _ => .closesBlock
  | .blockStart word => if isBlockReference before word then .plain else .opensBlock
  | _ => .plain

/-- The kind of the last token behind one of kind `before`. -/
def lastKind (before : Kind) (ts : List Token) : Kind := (ts.getLast?.map (·.kind)).getD before

/-- Tokens whose brackets match, and whose blocks match, behind a token of kind `before`. Inside a
bracket or block semicolons are `free`; there are blocks only where they are allowed. -/
inductive Matched : (free blocks : Bool) → (before : Kind) → List Token → Prop
  | nil {free blocks : Bool} {before : Kind} : Matched free blocks before []
  | plain {free blocks : Bool} {before : Kind} {t : Token} {ts : List Token} :
      role before t.kind = .plain → Matched free blocks t.kind ts →
      Matched free blocks before (t :: ts)
  | semicolon {blocks : Bool} {before : Kind} {t : Token} {ts : List Token} :
      role before t.kind = .semicolon → Matched true blocks t.kind ts →
      Matched true blocks before (t :: ts)
  | brackets {free blocks : Bool} {before : Kind} {opening closing : Token}
      {inner ts : List Token} : role before opening.kind = .opensBracket →
      Matched true blocks opening.kind inner →
      role (lastKind opening.kind inner) closing.kind = .closesBracket →
      Matched free blocks closing.kind ts →
      Matched free blocks before (opening :: (inner ++ closing :: ts))
  | block {free : Bool} {before : Kind} {opening closing : Token} {inner ts : List Token} :
      role before opening.kind = .opensBlock → Matched true true opening.kind inner →
      role (lastKind opening.kind inner) closing.kind = .closesBlock →
      Matched free true closing.kind ts →
      Matched free true before (opening :: (inner ++ closing :: ts))

/-- A piece of an item: up to a semicolon, or up to the end of a block. `bare` are those that end
with a block without a label. -/
inductive Segment : (bare : Bool) → (before : Kind) → List Token → Prop
  | statement {before : Kind} {ts : List Token} {semicolon : Token} :
      Matched false false before ts → role (lastKind before ts) semicolon.kind = .semicolon →
      Segment false before (ts ++ [semicolon])
  | block {before : Kind} {ts inner : List Token} {opening closing : Token} :
      Matched false false before ts → role (lastKind before ts) opening.kind = .opensBlock →
      Matched true true opening.kind inner →
      role (lastKind opening.kind inner) closing.kind = .closesBlock →
      Segment true before (ts ++ opening :: (inner ++ [closing]))
  | labelled {before : Kind} {ts : List Token} {colon name : Token} :
      Segment true before ts → colon.kind = .colon → name.kind.isIdentifier = true →
      Segment false before (ts ++ [colon, name])

/-- Pieces of one item, each after the first behind `else`. -/
inductive Chain : (bare : Bool) → (before : Kind) → List Token → Prop
  | one {bare : Bool} {before : Kind} {ts : List Token} : Segment bare before ts →
      Chain bare before ts
  | more {bare last : Bool} {before : Kind} {ts us : List Token} : Segment bare before ts →
      headKind us = .word .elseWord → Chain last (lastKind before ts) us →
      Chain last before (ts ++ us)

section Steps

variable {prototype : Bool} {bound nest blocks : Nat} {before : Kind} {c c' c'' : Cursor}
  {s s' s'' : Session} {t : Token} {ts us rest : List Token} {x y z : ParserM Unit}

/-- Goes on where an `else` follows. -/
def untilElse (prototype : Bool) (bound : Nat) : ParserM Unit := do
  if ← sees (.word .elseWord) then
    passOver prototype bound 0 0

/-- What is done at a token, by the part it plays. -/
def turn (prototype : Bool) (bound nest blocks : Nat) (kind : Kind) : Role → ParserM Unit
  | .stop => return
  | .opensBracket => do
    take kind
    passOver prototype bound (nest + 1) blocks
  | .closesBracket => do
    take kind
    passOver prototype bound (nest - 1) blocks
  | .opensBlock => do
    take kind
    passOver prototype bound nest (if prototype then blocks else blocks + 1)
  | .closesBlock => do
    if blocks = 0 then
      return
    take kind
    if blocks = 1 && nest = 0 then
      let _ ← endLabel?
      untilElse prototype bound
    else
      passOver prototype bound nest (blocks - 1)
  | .semicolon => do
    take kind
    if nest = 0 && blocks = 0 then
      untilElse prototype bound
    else
      passOver prototype bound nest blocks
  | .plain => do
    take kind
    passOver prototype bound nest blocks

/-- From `c` on `x` consumes `ts` without a report, and then does what `y` does. -/
structure Leads (x : ParserM Unit) (c : Cursor) (s : Session) (ts : List Token) (y : ParserM Unit)
    (c' : Cursor) (s' : Session) : Prop where
  passes : c.Passes ts c'
  run : (x.task c).run s = (y.task c').run s'
  emitted : (x.task c).emitted s = (y.task c').emitted s'

theorem Leads.trans (h : Leads x c s ts y c' s') (h' : Leads y c' s' us z c'' s'') :
    Leads x c s (ts ++ us) z c'' s'' :=
  ⟨h.passes.trans h'.passes, h.run.trans h'.run, h.emitted.trans h'.emitted⟩

/-- A first part that consumes nothing. -/
theorem Leads.quietly (h : Leads x c s [] y c' s') (h' : Leads y c' s' us z c'' s'') :
    Leads x c s us z c'' s'' := h.trans h'

theorem Leads.refl (x : ParserM Unit) (c : Cursor) (s : Session) : Leads x c s [] x c s :=
  ⟨.stay rfl rfl rfl rfl, rfl, rfl⟩

theorem Leads.of_reads {α : Type} {x : ParserM α} {f : α → ParserM Unit} {a : α}
    (h : Reads x c s ts a c' s') : Leads (x >>= f) c s ts (f a) c' s' := by
  refine ⟨h.passes, run_bind h.run, ?_⟩
  rw [emitted_bind h.run, h.quiet, List.nil_append]

/-- What is done next is settled by the part of the next token. -/
theorem passOver_turn (hbefore : c.prevKind = .ok before) :
    Leads (passOver prototype (bound + 1) nest blocks) c s []
      (turn prototype bound nest blocks c.current (role before c.current)) c s := by
  refine (Leads.of_reads .look).quietly ?_
  rw [hbefore]
  refine (Leads.of_reads .pure).quietly ?_
  cases hkind : c.current with
  | blockStart word =>
    cases prototype <;> cases hrefers : isBlockReference before word <;>
      simp only [role, hrefers, turn] <;> exact .refl _ _ _
  | _ => exact .refl _ _ _

theorem Cursor.Passes.prevKind (h : c.Passes ts c') (hbefore : c.prevKind = .ok before) :
    c'.prevKind = .ok (lastKind before ts) := by
  cases hlast : ts.getLast? with
  | none =>
    obtain rfl := List.getLast?_eq_none_iff.mp hlast
    have hsame : c'.prevToken = c.prevToken := by
      simp [Cursor.prevToken, h.consumed, h.prev]
    rw [Cursor.prevKind, hsame]
    exact hbefore
  | some t =>
    have hconsumed : c'.consumed ≠ 0 := by
      rw [h.consumed]
      have hne : ts ≠ [] := by
        rintro rfl
        cases hlast
      have hlength := List.length_pos_of_ne_nil hne
      omega
    rw [Cursor.prevKind, Cursor.prevToken, if_neg hconsumed, h.prev, hlast, lastKind, hlast]
    rfl

theorem Cursor.Passes.behind (h : c.Passes ts c') (hrest : c.rest = ts ++ rest) : c'.rest = rest :=
  List.append_cancel_left (h.rest.symm.trans hrest)

/-- A token that is no stop is consumed, and what is done next depends on the part it plays. -/
theorem leads_turn {r : Role} (hbefore : c.prevKind = .ok before) (hrest : c.rest = t :: rest)
    (hrole : role before t.kind = r) (hr : r ≠ .stop)
    (hturn : turn prototype bound nest blocks t.kind r = (do take t.kind; y)) :
    Leads (passOver prototype (bound + 1) nest blocks) c s [t] y c.advance s := by
  have hcurrent : c.current = t.kind := current_of_rest hrest
  have heof : t.kind ≠ .eof := by
    intro heof
    rw [heof] at hrole
    exact hr hrole.symm
  have hstart : Leads (passOver prototype (bound + 1) nest blocks) c s []
      (turn prototype bound nest blocks c.current (role before c.current)) c s :=
    passOver_turn hbefore
  rw [hcurrent, hrole, hturn] at hstart
  refine hstart.quietly ⟨?_, ?_, ?_⟩
  · refine ⟨?_, ?_, ?_, ?_, List.forall_mem_singleton.mpr heof⟩
    all_goals simp [Cursor.advance, hrest, heof]
  · exact run_bind (take_run hcurrent s).1
  · rw [emitted_bind (take_run hcurrent s).1, (take_run hcurrent s).2, List.nil_append]

/-- With `nest` brackets and `blocks` blocks open the tokens are passed over, and then `nest'` and
`blocks'` are. -/
def Crosses (nest blocks nest' blocks' : Nat) (before : Kind) (ts : List Token) : Prop :=
  ∀ c s rest more, c.prevKind = .ok before → c.rest = ts ++ rest →
    ∃ c', Leads (passOver false (ts.length + more) nest blocks) c s ts
      (passOver false more nest' blocks') c' s

namespace Crosses

variable {nest' blocks' nest'' blocks'' : Nat}

theorem nil : Crosses nest blocks nest blocks before [] := by
  intro c s rest more _ _
  refine ⟨c, ?_⟩
  rw [List.length_nil, Nat.zero_add]
  exact .refl _ _ _

theorem append (h : Crosses nest blocks nest' blocks' before ts)
    (h' : Crosses nest' blocks' nest'' blocks'' (lastKind before ts) us) :
    Crosses nest blocks nest'' blocks'' before (ts ++ us) := by
  intro c s rest more hbefore hrest
  rw [List.append_assoc] at hrest
  obtain ⟨c', hfirst⟩ := h c s (us ++ rest) (us.length + more) hbefore hrest
  obtain ⟨c'', hlater⟩ := h' c' s rest more (hfirst.passes.prevKind hbefore)
    (hfirst.passes.behind hrest)
  refine ⟨c'', ?_⟩
  rw [List.length_append, Nat.add_assoc]
  exact hfirst.trans hlater

theorem cons (h : Crosses nest blocks nest' blocks' before [t])
    (h' : Crosses nest' blocks' nest'' blocks'' t.kind ts) :
    Crosses nest blocks nest'' blocks'' before (t :: ts) := h.append h'

/-- One token, by the part it plays. -/
theorem of_turn {r : Role} (hrole : role before t.kind = r) (hr : r ≠ .stop)
    (hturn : ∀ bound, turn false bound nest blocks t.kind r =
      (do take t.kind; passOver false bound nest' blocks')) :
    Crosses nest blocks nest' blocks' before [t] := by
  intro c s rest more hbefore hrest
  refine ⟨c.advance, ?_⟩
  rw [List.length_singleton, Nat.add_comm]
  exact leads_turn hbefore hrest hrole hr (hturn more)

theorem plain (h : role before t.kind = .plain) : Crosses nest blocks nest blocks before [t] :=
  of_turn h nofun fun _ => rfl

theorem opensBracket (h : role before t.kind = .opensBracket) :
    Crosses nest blocks (nest + 1) blocks before [t] := of_turn h nofun fun _ => rfl

theorem closesBracket (h : role before t.kind = .closesBracket) :
    Crosses (nest + 1) blocks nest blocks before [t] := of_turn h nofun fun _ => rfl

theorem opensBlock (h : role before t.kind = .opensBlock) :
    Crosses nest blocks nest (blocks + 1) before [t] := of_turn h nofun fun _ => rfl

/-- The end of a block inside another. -/
theorem closesBlock (h : role before t.kind = .closesBlock) :
    Crosses nest (blocks + 2) nest (blocks + 1) before [t] :=
  of_turn h nofun fun _ => by simp [turn]

/-- A semicolon inside brackets or blocks. -/
theorem semicolon (h : role before t.kind = .semicolon) (hinside : nest ≠ 0 ∨ blocks ≠ 0) :
    Crosses nest blocks nest blocks before [t] := by
  refine of_turn h nofun fun _ => ?_
  rcases hinside with hinside | hinside <;> simp [turn, hinside]

end Crosses

/-- Where brackets and blocks match, both counts come back to what they were. -/
theorem Matched.crosses {free allowed : Bool} (h : Matched free allowed before ts)
    (hfree : free = true → nest ≠ 0 ∨ blocks ≠ 0) (hallowed : allowed = true → blocks ≠ 0) :
    Crosses nest blocks nest blocks before ts := by
  induction h generalizing nest blocks with
  | nil => exact .nil
  | plain hrole _ ih => exact .cons (.plain hrole) (ih hfree hallowed)
  | semicolon hrole _ ih => exact .cons (.semicolon hrole (hfree rfl)) (ih hfree hallowed)
  | @brackets _ _ _ opening _ inner _ hopening _ hclosing _ ihInner ih =>
    have hinner : Crosses (nest + 1) blocks (nest + 1) blocks opening.kind inner :=
      ihInner (fun _ => .inl (Nat.succ_ne_zero _)) hallowed
    have hbehind := Crosses.cons (.closesBracket hclosing) (ih hfree hallowed)
    exact .cons (.opensBracket hopening) (hinner.append hbehind)
  | @block _ _ opening _ inner _ hopening _ hclosing _ ihInner ih =>
    obtain ⟨blocks, rfl⟩ := Nat.exists_eq_succ_of_ne_zero (hallowed rfl)
    have hinner : Crosses nest (blocks + 2) nest (blocks + 2) opening.kind inner :=
      ihInner (fun _ => .inr (Nat.succ_ne_zero _)) fun _ => Nat.succ_ne_zero _
    have hbehind := Crosses.cons (.closesBlock hclosing) (ih hfree hallowed)
    exact .cons (.opensBlock hopening) (hinner.append hbehind)

/-- A block is passed over up to where its label could follow. -/
theorem Segment.leads_block (h : Segment true before ts) (more : Nat) (s : Session)
    (hbefore : c.prevKind = .ok before) (hrest : c.rest = ts ++ rest) :
    ∃ c', Leads (passOver false (ts.length + more) 0 0) c s ts
      (do let _ ← endLabel?; untilElse false more) c' s := by
  cases h with
  | @block _ ts inner opening closing hmatched hopening hinner hclosing =>
    have hopened : Crosses 0 0 0 1 before (ts ++ opening :: inner) :=
      (hmatched.crosses nofun nofun).append (.cons (.opensBlock hopening)
        (hinner.crosses (fun _ => .inr Nat.one_ne_zero) fun _ => Nat.one_ne_zero))
    have hlast : lastKind before (ts ++ opening :: inner) = lastKind opening.kind inner := by
      simp [lastKind, List.getLast?_append, List.getLast?_cons]
    have hsplit : ts ++ opening :: (inner ++ [closing]) =
        (ts ++ opening :: inner) ++ [closing] := by simp
    rw [hsplit] at hrest ⊢
    rw [List.append_assoc] at hrest
    obtain ⟨c', hfirst⟩ := hopened c s ([closing] ++ rest) (more + 1) hbefore hrest
    refine ⟨c'.advance, ?_⟩
    rw [List.length_append, List.length_singleton, Nat.add_assoc, Nat.add_comm 1]
    rw [← hlast] at hclosing
    exact hfirst.trans (leads_turn (hfirst.passes.prevKind hbefore) (hfirst.passes.behind hrest)
      hclosing nofun rfl)

/-- A piece is passed over up to where an `else` could follow. -/
theorem Segment.leads {bare : Bool} (h : Segment bare before ts) (more : Nat) (s : Session)
    (hbefore : c.prevKind = .ok before) (hrest : c.rest = ts ++ rest)
    (hlabel : bare = true → headKind rest ≠ .colon) :
    ∃ c' s' bound, more ≤ bound ∧
      Leads (passOver false (ts.length + more) 0 0) c s ts (untilElse false bound) c' s' := by
  cases h with
  | @statement _ ts semicolon hmatched hsemicolon =>
    rw [List.append_assoc] at hrest
    obtain ⟨c', hfirst⟩ := hmatched.crosses nofun nofun c s ([semicolon] ++ rest) (more + 1) hbefore
      hrest
    refine ⟨c'.advance, s, more, Nat.le_refl _, ?_⟩
    rw [List.length_append, List.length_singleton, Nat.add_assoc, Nat.add_comm 1]
    exact hfirst.trans (leads_turn (hfirst.passes.prevKind hbefore) (hfirst.passes.behind hrest)
      hsemicolon nofun rfl)
  | block hmatched hopening hinner hclosing =>
    obtain ⟨c', hfirst⟩ := (Segment.block hmatched hopening hinner hclosing).leads_block
      more s hbefore hrest
    have hnone : Accepts c'.file endLabel? [] rest fun _ _ => True :=
      .eatOther (hlabel rfl) (.pure fun _ => trivial)
    obtain ⟨label, c'', s'', hreads, -⟩ := hnone c' s rfl (hfirst.passes.behind hrest)
    refine ⟨c'', s'', more, Nat.le_refl _, ?_⟩
    have hboth := hfirst.trans (.of_reads hreads)
    rwa [List.append_nil] at hboth
  | @labelled _ ts colon name hblock hcolon hname =>
    rw [List.append_assoc] at hrest
    obtain ⟨c', hfirst⟩ := hblock.leads_block (more + 2) s hbefore hrest
    have hsome : Accepts c'.file endLabel? [colon, name] rest fun _ _ => True :=
      .eat (by decide) hcolon (.map ((Accepts.nameOr hname).mono fun _ _ _ => trivial))
    obtain ⟨label, c'', s'', hreads, -⟩ := hsome c' s rfl (hfirst.passes.behind hrest)
    refine ⟨c'', s'', more + 2, Nat.le_add_right _ _, ?_⟩
    rw [List.length_append, Nat.add_assoc, Nat.add_comm [colon, name].length]
    exact hfirst.trans (.of_reads hreads)

/-- A whole item is passed over, with all that follows it behind `else`. -/
theorem Chain.leads {bare : Bool} (h : Chain bare before ts) (more : Nat) (s : Session)
    (hbefore : c.prevKind = .ok before) (hrest : c.rest = ts ++ rest)
    (hlabel : bare = true → headKind rest ≠ .colon) (helse : headKind rest ≠ .word .elseWord) :
    ∃ c' s', Leads (passOver false (ts.length + more) 0 0) c s ts (return) c' s' := by
  induction h generalizing c s more with
  | one hsegment =>
    obtain ⟨c', s', bound, -, hfirst⟩ := hsegment.leads more s hbefore hrest hlabel
    have hstop : Leads (untilElse false bound) c' s' [] (return) c' s' := by
      refine (Leads.of_reads (.sees _)).quietly ?_
      rw [current_of_rest (hfirst.passes.behind hrest), decide_eq_false helse]
      exact .refl _ _ _
    have hboth := hfirst.trans hstop
    rw [List.append_nil] at hboth
    exact ⟨c', s', hboth⟩
  | @more bare last before ts us hsegment hhead _ ih =>
    rw [List.append_assoc] at hrest
    have hnext : headKind (us ++ rest) = .word .elseWord := by
      cases us with
      | nil => cases hhead
      | cons u us => exact hhead
    obtain ⟨c', s', bound, hbound, hfirst⟩ := hsegment.leads (us.length + more) s
      hbefore hrest fun _ => by rw [hnext]; nofun
    have hgoes : Leads (untilElse false bound) c' s' [] (passOver false bound 0 0) c' s' := by
      refine (Leads.of_reads (.sees _)).quietly ?_
      rw [current_of_rest (hfirst.passes.behind hrest), decide_eq_true hnext]
      exact .refl _ _ _
    obtain ⟨c'', s'', hlater⟩ := ih (bound - us.length) s'
      (hfirst.passes.prevKind hbefore) (hfirst.passes.behind hrest) hlabel
    rw [Nat.add_sub_cancel' (by omega)] at hlater
    refine ⟨c'', s'', ?_⟩
    rw [List.length_append, Nat.add_assoc]
    exact hfirst.trans (hgoes.trans hlater)

end Steps

/-- How many blocks a token opens. In a prototype none does. -/
def Role.opened (prototype : Bool) : Role → Nat
  | .opensBlock => if prototype then 0 else 1
  | _ => 0

def Role.closed : Role → Nat
  | .closesBlock => 1
  | _ => 0

/-- How many blocks the tokens open behind one of kind `before`. -/
def blocksOpened (prototype : Bool) : (before : Kind) → List Token → Nat
  | _, [] => 0
  | before, t :: ts => (role before t.kind).opened prototype + blocksOpened prototype t.kind ts

def blocksClosed (ts : List Token) : Nat := ts.countP fun t => t.kind.closesBlock

/-- No unit begins or ends among the tokens, and no block is closed that was not opened before, or
is one of `blocks`. -/
structure Guarded (prototype : Bool) (blocks : Nat) (before : Kind) (ts : List Token) : Prop where
  unit : ∀ t ∈ ts, t.kind.isUnitBoundary = false
  block : ∀ us, us <+: ts → blocksClosed us ≤ blocks + blocksOpened prototype before us

theorem isUnitBoundary_of_role {before kind : Kind} (h : role before kind ≠ .stop) :
    kind.isUnitBoundary = false := by
  cases kind <;> first | rfl | exact absurd rfl h

theorem closed_role (before kind : Kind) :
    (role before kind).closed = if kind.closesBlock then 1 else 0 := by
  cases kind with
  | blockStart word =>
    cases hrefers : isBlockReference before word <;>
      simp [role, hrefers, Role.closed, Kind.closesBlock]
  | _ => rfl

section Guards

variable {prototype : Bool} {nest blocks blocks' bound : Nat} {before : Kind} {c c' : Cursor}
  {s s' : Session} {t : Token} {ts : List Token} {x y : ParserM Unit}

theorem Guarded.nil : Guarded prototype blocks before [] := by
  refine ⟨List.forall_mem_nil _, fun us hus => ?_⟩
  rw [List.prefix_nil.mp hus]
  exact Nat.zero_le _

theorem Guarded.cons (hrole : role before t.kind ≠ .stop)
    (hblock : blocks' + (role before t.kind).closed ≤
      blocks + (role before t.kind).opened prototype)
    (h : Guarded prototype blocks' t.kind ts) : Guarded prototype blocks before (t :: ts) := by
  refine ⟨List.forall_mem_cons.mpr ⟨isUnitBoundary_of_role hrole, h.unit⟩, fun us hus => ?_⟩
  rcases List.prefix_cons_iff.mp hus with rfl | ⟨us, rfl, hrest⟩
  · exact Nat.zero_le _
  · have hlater := h.block us hrest
    rw [blocksClosed, List.countP_cons, blocksOpened, ← closed_role before]
    rw [blocksClosed] at hlater
    omega

/-- What the parser consumes is guarded, where `blocks` are open at its start. -/
def Guards (prototype : Bool) (blocks : Nat) (x : ParserM Unit) : Prop :=
  ∀ (c : Cursor) (s : Session) (ts : List Token) (before : Kind), c.prevKind = .ok before →
    c.Passes ts ((x.task c).run s).1.2 → Guarded prototype blocks before ts

theorem Guards.mono (h : Guards prototype blocks x) (hle : blocks ≤ blocks') :
    Guards prototype blocks' x := by
  intro c s ts before hbefore hpasses
  obtain ⟨hunit, hblock⟩ := h c s ts before hbefore hpasses
  exact ⟨hunit, fun us hus => (hblock us hus).trans (Nat.add_le_add_right hle _)⟩

theorem guards_return : Guards prototype blocks (return) := by
  intro c s ts before _ hpasses
  rw [hpasses.eq_nil rfl]
  exact .nil

/-- A token, and then what is consumed behind it. -/
theorem Guards.guarded_cons (hy : Guards prototype blocks' y) (h : Leads x c s [t] y c' s')
    (hbefore : c.prevKind = .ok before) (hrole : role before t.kind ≠ .stop)
    (hblock : blocks' + (role before t.kind).closed ≤
      blocks + (role before t.kind).opened prototype)
    (hpasses : c.Passes ts ((x.task c).run s).1.2) : Guarded prototype blocks before ts := by
  obtain ⟨us, hus⟩ := Cursor.Passes.exists_run y c' s'
  rw [h.run] at hpasses
  rw [hpasses.eq (h.passes.trans hus)]
  exact .cons hrole hblock (hy c' s' us _ (h.passes.prevKind hbefore) hus)

theorem guards_untilElse (h : Guards prototype 0 (passOver prototype bound 0 0)) :
    Guards prototype blocks (untilElse prototype bound) := by
  intro c s ts before hbefore hpasses
  have hsees : Leads (untilElse prototype bound) c s [] _ c s := .of_reads (.sees _)
  rw [hsees.run] at hpasses
  by_cases helse : c.current = .word .elseWord
  · rw [decide_eq_true helse] at hpasses
    exact h.mono (Nat.zero_le _) c s ts before hbefore hpasses
  · rw [decide_eq_false helse] at hpasses
    exact guards_return c s ts before hbefore hpasses

/-- A label is a colon and perhaps a name, whatever stands there. -/
theorem isLabel_of_passes (hpasses : c.Passes ts ((endLabel?.task c).run s).1.2) : IsLabel ts := by
  by_cases hcolon : c.current = .colon
  · obtain ⟨u, r, hrest⟩ : ∃ u r, c.rest = u :: r := by
      cases hrest : c.rest with
      | nil => rw [current_of_rest hrest] at hcolon; cases hcolon
      | cons u r => exact ⟨u, r, rfl⟩
    have hu : u.kind = .colon := (current_of_rest hrest).symm.trans hcolon
    obtain ⟨c', -, heat⟩ := Reads.eat (s := s) hrest hu (by decide)
    obtain ⟨name, c'', t, us, hname, hus, hnamed⟩ := passes_expectIdentifier c' s
    have hmap : ((some <$> expectIdentifier).task c').run s = ((some name, c''), t) :=
      run_bind hname
    have hrun : (endLabel?.task c).run s = ((some name, c''), t) := (run_bind heat.run).trans hmap
    rw [hrun] at hpasses
    rw [hpasses.eq (heat.passes.trans hus)]
    refine .inr ⟨u, hu, ?_⟩
    rcases hnamed with ⟨⟨v, hv, rfl⟩, -⟩ | ⟨rfl, -⟩
    · exact .inr ⟨v, hv, rfl⟩
    · exact .inl rfl
  · have hrun : (endLabel?.task c).run s = ((none, c), s) :=
      run_bind (Reads.eat_other (s := s) hcolon).run
    rw [hrun] at hpasses
    exact .inl (hpasses.eq_nil rfl)

theorem Guarded.cons_plain (hplain : role before t.kind = .plain)
    (h : Guarded prototype blocks t.kind ts) : Guarded prototype blocks before (t :: ts) :=
  .cons (by rw [hplain]; nofun) (by rw [hplain]; exact Nat.le_refl _) h

theorem role_of_isIdentifier {kind : Kind} (h : kind.isIdentifier = true) :
    role before kind = .plain := by
  cases kind <;> first | rfl | cases h

theorem Guarded.append_label {us : List Token} (hus : IsLabel us)
    (h : Guarded prototype blocks (lastKind before us) ts) :
    Guarded prototype blocks before (us ++ ts) := by
  rcases hus with rfl | ⟨colon, hcolon, rfl | ⟨name, hname, rfl⟩⟩
  · exact h
  · exact .cons_plain (by rw [hcolon]; rfl) h
  · exact .cons_plain (by rw [hcolon]; rfl) (.cons_plain (role_of_isIdentifier hname) h)

theorem guards_label (h : Guards prototype blocks x) :
    Guards prototype blocks (do let _ ← endLabel?; x) := by
  intro c s ts before hbefore hpasses
  rcases hrun : (endLabel?.task c).run s with ⟨⟨label, c'⟩, t⟩
  obtain ⟨us, hus⟩ := Cursor.Passes.exists_run endLabel? c s
  obtain ⟨vs, hvs⟩ := Cursor.Passes.exists_run x c' t
  have hlabel := isLabel_of_passes hus
  rw [hrun] at hus
  rw [run_bind hrun] at hpasses
  rw [hpasses.eq (hus.trans hvs)]
  exact .append_label hlabel (h c' t vs _ (hus.prevKind hbefore) hvs)

theorem guards_passOver (prototype : Bool) (bound nest blocks : Nat) :
    Guards prototype blocks (passOver prototype bound nest blocks) := by
  induction bound generalizing nest blocks with
  | zero => exact guards_return
  | succ bound ih =>
    intro c s ts before hbefore hpasses
    have hstop (hturn : turn prototype bound nest blocks c.current (role before c.current) =
        return) : Guarded prototype blocks before ts := by
      have hstart : Leads (passOver prototype (bound + 1) nest blocks) c s []
          (turn prototype bound nest blocks c.current (role before c.current)) c s :=
        passOver_turn hbefore
      rw [hturn] at hstart
      rw [hstart.run] at hpasses
      exact guards_return c s ts before hbefore hpasses
    cases hrest : c.rest with
    | nil => exact hstop (by rw [current_of_rest hrest]; rfl)
    | cons t rest =>
      have hcurrent : c.current = t.kind := current_of_rest hrest
      have hmore {r : Role} {y : ParserM Unit} {blocks' : Nat} (hrole : role before t.kind = r)
          (hr : r ≠ .stop)
          (hturn : turn prototype bound nest blocks t.kind r = (do take t.kind; y))
          (hy : Guards prototype blocks' y)
          (hblock : blocks' + r.closed ≤ blocks + r.opened prototype) :
          Guarded prototype blocks before ts := by
        subst hrole
        exact hy.guarded_cons (leads_turn hbefore hrest rfl hr hturn) hbefore hr hblock hpasses
      cases hrole : role before t.kind with
      | stop => exact hstop (by rw [hcurrent, hrole]; rfl)
      | opensBracket => exact hmore hrole nofun rfl (ih _ _) (Nat.le_refl _)
      | closesBracket => exact hmore hrole nofun rfl (ih _ _) (Nat.le_refl _)
      | plain => exact hmore hrole nofun rfl (ih _ _) (Nat.le_refl _)
      | opensBlock =>
        refine hmore hrole nofun rfl (ih _ _) ?_
        cases prototype <;> exact Nat.le_refl _
      | semicolon =>
        by_cases houtside : (nest = 0 && blocks = 0) = true
        · refine hmore hrole nofun ?_ (guards_untilElse (ih 0 0)) (Nat.le_refl _)
          simp only [turn, if_pos houtside]
        · refine hmore hrole nofun ?_ (ih nest blocks) (Nat.le_refl _)
          simp only [turn, if_neg houtside]
      | closesBlock =>
        cases blocks with
        | zero => exact hstop (by rw [hcurrent, hrole]; rfl)
        | succ blocks =>
          by_cases hlast : (blocks + 1 = 1 && nest = 0) = true
          · refine hmore hrole nofun ?_ (guards_label (guards_untilElse (ih 0 0))) (Nat.le_refl _)
            simp only [turn, if_pos hlast, if_neg (Nat.succ_ne_zero blocks)]
          · refine hmore hrole nofun ?_ (ih nest blocks) (Nat.le_refl _)
            simp only [turn, if_neg hlast, if_neg (Nat.succ_ne_zero blocks), Nat.add_sub_cancel]

end Guards

/-- Items that are passed over end exactly where they close: a chain of pieces, in front of what can
go on with none of them, is consumed as a whole and nothing else is. Whatever the tokens are, no
unit boundary is consumed, and no closing word more than there are opening ones before it. -/
theorem skipItem_exact {c : Cursor} {before : Kind} (hbefore : c.prevKind = .ok before)
    (s : Session) :
    (∀ bare ts behind, Chain bare before ts → isPrototype c.current = false →
      c.rest = ts ++ behind → headKind behind ≠ .word .elseWord →
      (bare = true → headKind behind ≠ .colon) →
      ∃ c' s', ((skipItem c).task c).run s = (((), c'), s') ∧
        ((skipItem c).task c).emitted s = [] ∧ c.Passes ts c' ∧ c'.rest = behind) ∧
    ∃ ts, c.Passes ts (((skipItem c).task c).run s).1.2 ∧
      (∀ t ∈ ts, t.kind ≠ .eof ∧ t.kind.isUnitBoundary = false) ∧
      ∀ us, us <+: ts → blocksClosed us ≤ blocksOpened (isPrototype c.current) before us := by
  constructor
  · intro bare ts behind hchain hprototype hrest helse hlabel
    obtain ⟨c', s', hleads⟩ := hchain.leads behind.length s hbefore hrest hlabel helse
    have hskip : skipItem c = passOver false (ts.length + behind.length) 0 0 := by
      rw [skipItem, hprototype, hrest, List.length_append]
    rw [hskip]
    exact ⟨c', s', hleads.run, hleads.emitted, hleads.passes, hleads.passes.behind hrest⟩
  · obtain ⟨ts, hpasses⟩ := Cursor.Passes.exists_run (skipItem c) c s
    obtain ⟨hunit, hblock⟩ := guards_passOver _ _ 0 0 c s ts before hbefore hpasses
    refine ⟨ts, hpasses, fun t ht => ⟨hpasses.inner t ht, hunit t ht⟩, fun us hus => ?_⟩
    have hle := hblock us hus
    rwa [Nat.zero_add] at hle

section Sample

/-- `if (a)` -/
def conditionTokens : List Token :=
  ⟨.word .ifWord, "if", 0, 2⟩ :: ⟨.leftParen, "(", 3, 4⟩ ::
    ([⟨.identifier, "a", 4, 5⟩] ++ [⟨.rightParen, ")", 5, 6⟩])

/-- `wait fork; case x endcase` -/
def bodyTokens : List Token :=
  ⟨.word .wait, "wait", 13, 17⟩ :: ⟨.blockStart .forkBlock, "fork", 18, 22⟩ ::
    ⟨.semicolon, ";", 22, 23⟩ :: ⟨.blockStart .caseBlock, "case", 24, 28⟩ ::
    ([⟨.identifier, "x", 29, 30⟩] ++ [⟨.blockEnd .endcase, "endcase", 31, 38⟩])

/-- The tokens of `if (a) begin wait fork; case x endcase end : g else y;`. -/
def branchTokens : List Token :=
  conditionTokens ++ ⟨.blockStart .beginBlock, "begin", 7, 12⟩ ::
      (bodyTokens ++ [⟨.blockEnd .endBlock, "end", 39, 42⟩]) ++
    [⟨.colon, ":", 43, 44⟩, ⟨.identifier, "g", 45, 46⟩] ++
    ([⟨.word .elseWord, "else", 47, 51⟩, ⟨.identifier, "y", 52, 53⟩] ++ [⟨.semicolon, ";", 53, 54⟩])

theorem chain_branchTokens : Chain false .eof branchTokens := by
  have hinside : Matched true false .leftParen [⟨.identifier, "a", 4, 5⟩] := .plain rfl .nil
  have hcondition : Matched false false .eof conditionTokens :=
    .plain rfl (.brackets rfl hinside rfl .nil)
  have hinner : Matched true true (.blockStart .caseBlock) [⟨.identifier, "x", 29, 30⟩] :=
    .plain rfl .nil
  -- The word behind `wait` opens no block.
  have hbody : Matched true true (.blockStart .beginBlock) bodyTokens :=
    .plain rfl (.plain rfl (.semicolon rfl (.block rfl hinner rfl .nil)))
  exact .more (.labelled (.block hcondition rfl hbody rfl) rfl rfl) rfl
    (.one (.statement (.plain rfl (.plain rfl .nil)) rfl))

/-- The end of the unit stays. -/
theorem skipItem_exact_branch :
    let c : Cursor :=
      { file := 0, rest := branchTokens ++ [⟨.unitEnd .module, "endmodule", 55, 64⟩] }
    c.startsOtherItem = true ∧ isPrototype c.current = false ∧
      ∃ c' s', ((skipItem c).task c).run {} = (((), c'), s') ∧ c.Passes branchTokens c' ∧
        headKind c'.rest = .unitEnd .module := by
  intro c
  obtain ⟨c', s', hrun, -, hpasses, hrest⟩ := (skipItem_exact (c := c) rfl {}).1 false branchTokens
    _ chain_branchTokens rfl rfl nofun nofun
  exact ⟨by decide +kernel, rfl, c', s', hrun, hpasses, by rw [hrest]; rfl⟩

end Sample

end Netlist.Parser
