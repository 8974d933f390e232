import Netlist.Proofs.Parser.Joining
import Netlist.Proofs.Parser.Recursion.Expression
import Netlist.Proofs.Parser.Sentences
import Netlist.Proofs.Run.Accounted

/-!
Parsers come to an end, whatever the tokens: lexed or not, with the end of a text behind them, among
them or nowhere. Every loop consumes a token in each of its rounds, in those too that only report
errors. The parsers called from outside return, move forward over tokens before the end, and do not
leave everything as it was: a statement or an expression that consumes no token reports an error,
and a whole file is parsed up to its end.
-/
namespace Netlist.Parser

open Syntax

variable {α : Type} {c c' : Cursor} {s t : Session}

section Loops

/-- Items, each behind a comma. -/
def afterCommas (item : ParserM α) : Recursion Unit (List α) where
  step next _ := do
    if ← eat .comma then
      let first ← item
      return first :: (← next ())
    else
      return []
  parser _ := moreItems item

theorem founded_afterCommas (item : ParserM α) : (afterCommas item).Founded := by
  intro c hc next next' hnext _
  refine .eat hc (by decide) ?_ (.refl _)
  exact .next _ fun first => (hnext ()).bind fun _ => .refl _

theorem counts_afterCommas (item : ParserM α) :
    (afterCommas item).Counts fun bound _ => commaItems item bound where
  zero c _ hnil next _ s := by
    have hother : c.current ≠ .comma := by
      rw [current_of_rest hnil]
      nofun
    rw [afterCommas, run_bind (Reads.eat_other hother).run]
    rfl
  succ _ _ _ _ _ := .refl _

theorem ends_afterCommas (item : ParserM α) : (afterCommas item).Ends :=
  (founded_afterCommas item).ends (counts_afterCommas item) fun _ => rfl

/-- Items as long as one begins with a token of this kind. -/
def whileAt (kind : Kind) (item : ParserM α) : Recursion Unit (List α) where
  step next _ := do
    if ← sees kind then
      let first ← item
      return first :: (← next ())
    else
      return []
  parser _ := itemsAt kind item

section While

variable {kind : Kind} {item : ParserM α}

theorem founded_whileAt (heats : ∀ r, headKind r = kind → Eats r item) :
    (whileAt kind item).Founded := by
  intro c hc next next' hnext _
  refine .sees (fun hkind => ?_) fun _ => .refl _
  have hitem : Eats c.rest item := heats c.rest ((current_of_rest rfl).symm.trans hkind)
  exact .eats hc hitem fun first => (hnext ()).bind fun _ => .refl _

theorem counts_whileAt (heof : kind ≠ .eof) :
    (whileAt kind item).Counts fun bound _ => itemsWhile kind item bound where
  zero c _ hnil next _ s := by
    have hother : c.current ≠ kind := by
      rw [current_of_rest hnil]
      exact heof.symm
    rw [whileAt, run_bind (Reads.sees kind).run, decide_eq_false hother]
    rfl
  succ _ _ _ _ _ := .refl _

theorem ends_whileAt (heof : kind ≠ .eof) (heats : ∀ r, headKind r = kind → Eats r item) :
    (whileAt kind item).Ends :=
  (founded_whileAt heats).ends (counts_whileAt heof) fun _ => rfl

end While

/-- What is behind the dimensions of an instance. -/
def opensPortsStep (next : List Token → Bool) (ts : List Token) : Bool :=
  if headKind ts = .leftBracket then
    match afterBalanced 0 ts with
    | some rest => next rest
    | none => false
  else headKind ts = .leftParen

theorem length_lt_of_afterBalanced {ts rest : List Token} (h : afterBalanced 0 ts = some rest) :
    rest.length < ts.length := by
  obtain ⟨-, hsuffix⟩ := afterBalanced_append h []
  have hle := hsuffix.length_le
  cases ts with
  | nil => cases h
  | cons t ts => exact Nat.lt_succ_of_le hle

/-- The search for a parenthesis ends within the tokens it looks at. -/
theorem opensPorts_bounded {ts : List Token} {bound steps : Nat} (hbound : ts.length ≤ bound)
    (hsteps : ts.length < steps) (beyond : List Token → Bool) :
    opensPortsStep^[steps] beyond ts = opensPorts bound ts := by
  induction bound generalizing ts steps with
  | zero =>
    obtain ⟨steps, rfl⟩ := Nat.exists_eq_succ_of_ne_zero (Nat.ne_zero_of_lt hsteps)
    obtain rfl := List.length_eq_zero_iff.mp (Nat.le_zero.mp hbound)
    rw [Function.iterate_succ_apply']
    rfl
  | succ bound ih =>
    obtain ⟨steps, rfl⟩ := Nat.exists_eq_succ_of_ne_zero (Nat.ne_zero_of_lt hsteps)
    rw [Function.iterate_succ_apply', opensPortsStep, opensPorts]
    cases hrest : afterBalanced 0 ts with
    | none => rfl
    | some rest =>
      have hless := length_lt_of_afterBalanced hrest
      have hrest : opensPortsStep^[steps] beyond rest = opensPorts bound rest :=
        ih (by omega) (by omega)
      simp only [hrest]

/-- Passing over an item, inside brackets and blocks. -/
def passing (prototype : Bool) : Recursion (Nat × Nat) Unit where
  step next := fun (nest, blocks) => do
    let c ← look
    let before ← demand .eof c.prevKind
    match c.current with
    | .eof => return
    | .unitStart _ => return
    | .unitEnd _ => return
    | .leftParen | .leftBracket | .leftBrace | .attrOpen =>
      take c.current
      next (nest + 1, blocks)
    | .rightParen | .rightBracket | .rightBrace | .attrClose =>
      take c.current
      next (nest - 1, blocks)
    | .semicolon =>
      take .semicolon
      if nest = 0 && blocks = 0 then
        if ← sees (.word .elseWord) then
          next (0, 0)
      else
        next (nest, blocks)
    | .blockEnd word =>
      if blocks = 0 then
        return
      take (.blockEnd word)
      if blocks = 1 && nest = 0 then
        let _ ← endLabel?
        if ← sees (.word .elseWord) then
          next (0, 0)
      else
        next (nest, blocks - 1)
    | .blockStart word =>
      take (.blockStart word)
      if prototype || isBlockReference before word then
        next (nest, blocks)
      else
        next (nest, blocks + 1)
    | kind =>
      take kind
      next (nest, blocks)
  parser := fun (nest, blocks) => do passOver prototype (← remaining) nest blocks

/-- There is a token consumed last wherever one is asked for. -/
theorem Cursor.Started.prevKind (hc : c.Started) : ∃ kind, c.prevKind = .ok kind := by
  unfold Cursor.prevKind Cursor.prevToken
  by_cases hzero : c.consumed = 0
  · exact ⟨.eof, by rw [if_pos hzero]; rfl⟩
  · cases hprev : c.prev with
    | none => exact absurd (hc hprev) hzero
    | some t => exact ⟨t.kind, by rw [if_neg hzero]; rfl⟩

theorem founded_passing (prototype : Bool) : (passing prototype).Founded := by
  rintro c hc next next' hnext ⟨nest, blocks⟩
  obtain ⟨before, hbefore⟩ := hc.prevKind
  refine .seen (fun _ => .look) ?_
  rw [hbefore]
  refine .seen (fun _ => .pure) ?_
  have hmore {kind : Kind} (hkind : c.current = kind) (heof : kind ≠ .eof) (i : Nat × Nat) :
      Same c (do take kind; next i) (do take kind; next' i) := .take hc hkind heof (hnext i)
  have helse : Agree c.rest.length
      (do if ← sees (.word .elseWord) then next (0, 0))
      (do if ← sees (.word .elseWord) then next' (0, 0)) := by
    refine .next _ fun found => ?_
    split
    · exact hnext _
    · exact .refl _
  split
  · exact .refl _
  · exact .refl _
  · exact .refl _
  · next hkind => exact hmore rfl (by rw [hkind]; decide) _
  · next hkind => exact hmore rfl (by rw [hkind]; decide) _
  · next hkind => exact hmore rfl (by rw [hkind]; decide) _
  · next hkind => exact hmore rfl (by rw [hkind]; decide) _
  · next hkind => exact hmore rfl (by rw [hkind]; decide) _
  · next hkind => exact hmore rfl (by rw [hkind]; decide) _
  · next hkind => exact hmore rfl (by rw [hkind]; decide) _
  · next hkind => exact hmore rfl (by rw [hkind]; decide) _
  · next hkind =>
    refine .take hc hkind (by decide) ?_
    split
    · exact helse
    · exact hnext _
  · next word hkind =>
    split
    · exact .refl _
    · refine .take hc hkind nofun ?_
      split
      · exact .next _ fun _ => helse
      · exact hnext _
  · next word hkind =>
    refine .take hc hkind nofun ?_
    split
    · exact hnext _
    · exact hnext _
  · next heof _ _ _ _ _ _ _ _ _ _ _ _ _ => exact hmore rfl heof _

theorem counts_passing (prototype : Bool) :
    (passing prototype).Counts fun bound i => passOver prototype bound i.1 i.2 where
  zero c hc hnil next i s := by
    obtain ⟨before, hbefore⟩ := hc.prevKind
    have hend : c.current = .eof := current_of_rest hnil
    rw [passing, run_bind Reads.look.run, hbefore, demand, run_bind Reads.pure.run, hend]
    rfl
  succ _ _ _ _ _ := .refl _

theorem ends_passing (prototype : Bool) : (passing prototype).Ends :=
  (founded_passing prototype).ends (counts_passing prototype) fun _ => rfl

/-- The items of a body. -/
def bodyItems (kind : UnitKind) : Recursion Unit (List Item) where
  step next _ := do
    let c ← look
    if c.current = .unitEnd kind || c.current = .eof || c.current.isUnitStart then
      return []
    let first ← item? c
    let rest ← next ()
    return first.toList ++ rest
  parser _ := do itemsWithin kind (← remaining)

/-- An item begins with a token that it consumes. -/
theorem length_lt_item? (heof : c.current ≠ .eof) (s : Session) :
    (((item? c).task c).run s).1.2.rest.length < c.rest.length := by
  obtain ⟨ts, hpasses⟩ := Cursor.Passes.exists_run (item? c) c s
  exact hpasses.consumed_lt_iff.mp (consumed_lt_item? heof)

theorem founded_bodyItems (kind : UnitKind) : (bodyItems kind).Founded := by
  intro c hc next next' hnext _
  refine .seen (fun _ => .look) ?_
  split
  next => exact .refl _
  next hinside =>
    simp only [Bool.or_eq_true, decide_eq_true_eq, not_or] at hinside
    exact .consumed hc (length_lt_item? hinside.1.2) fun first => (hnext ()).bind fun _ => .refl _

theorem counts_bodyItems (kind : UnitKind) :
    (bodyItems kind).Counts fun bound _ => itemsWithin kind bound where
  zero c _ hnil next _ s := by
    have hend : c.current = .eof := current_of_rest hnil
    rw [bodyItems, run_bind Reads.look.run, hend]
    simp [itemsWithin]
  succ _ _ _ _ _ := .refl _

theorem ends_bodyItems (kind : UnitKind) : (bodyItems kind).Ends :=
  (founded_bodyItems kind).ends (counts_bodyItems kind) fun _ => rfl

/-- The units of a file. -/
def fileUnits : Recursion Unit (List DesignUnit) where
  step next _ := do
    match ← current with
    | .eof => return []
    | .unitStart kind =>
      let first ← designUnit kind
      return first :: (← next ())
    | _ =>
      report .expectedUnit
      skipUntil Kind.isUnitStart
      next ()
  parser _ := do unitsWithin (← remaining)

theorem eats_designUnit {r : List Token} {kind : UnitKind} (h : headKind r = .unitStart kind) :
    Eats r (designUnit kind) :=
  .kept Silent.currentSpan.keeps fun _ => (Eats.take h nofun).bind

/-- What does not stop the skipping is skipped. -/
theorem eats_skipUntil {r : List Token} {stop : Kind → Bool} (heof : headKind r ≠ .eof)
    (hstop : stop (headKind r) = false) : Eats r (skipUntil stop) := by
  intro c s hrest
  show (c.rest.dropWhile fun t => decide (t.kind ≠ .eof) && !stop t.kind).length < r.length
  rw [hrest]
  cases r with
  | nil => exact absurd rfl heof
  | cons t r =>
    have ht : (decide (t.kind ≠ .eof) && !stop t.kind) = true := by
      have hne : t.kind ≠ .eof := heof
      have hgo : stop t.kind = false := hstop
      simp [hne, hgo]
    rw [List.dropWhile_cons, if_pos ht, List.length_cons]
    exact Nat.lt_succ_of_le (List.length_dropWhile_le _ _)

/-- What stands between units is consumed, at least one token of it. -/
theorem eats_betweenUnits {r : List Token} (heof : headKind r ≠ .eof)
    (hunit : ∀ kind, headKind r ≠ .unitStart kind) : Eats r (skipUntil Kind.isUnitStart) := by
  exact eats_skipUntil heof (isUnitStart_of_ne hunit)

theorem founded_fileUnits : fileUnits.Founded := by
  intro c hc next next' hnext _
  refine .seen (fun _ => .current) ?_
  have hhead : c.current = headKind c.rest := current_of_rest rfl
  split
  next => exact .refl _
  next kind hkind =>
    have heats : Eats c.rest (designUnit kind) := eats_designUnit (hhead.symm.trans hkind)
    exact .eats hc heats fun first => (hnext ()).bind fun _ => .refl _
  next heof hunit =>
    rw [hhead] at heof hunit
    refine .kept (keeps_report _) fun _ d hrest hd => ?_
    rw [← hrest] at heof hunit hnext
    exact .eats (hd hc) (eats_betweenUnits heof hunit) fun _ => hnext ()

theorem counts_fileUnits : fileUnits.Counts fun bound _ => unitsWithin bound where
  zero c _ hnil next _ s := by
    have hend : c.current = .eof := current_of_rest hnil
    rw [fileUnits, run_bind Reads.current.run, hend]
    rfl
  succ _ _ _ _ _ := .refl _

theorem ends_fileUnits : fileUnits.Ends :=
  founded_fileUnits.ends counts_fileUnits fun _ => rfl

/-- Every loop and every nest of parsers comes to an end. -/
structure RecursionsEnd : Prop where
  expressions : nesting.Ends
  operators : ∀ expr least, (extension expr least).Ends
  lists : ∀ {α : Type} (item : ParserM α), (afterCommas item).Ends
  names : (whileAt .dot dottedName).Ends
  ranges : (whileAt .leftBracket packedRange).Ends
  dimensions : (whileAt .leftBracket dimension).Ends
  attributes : (whileAt .attrOpen attributeGroup).Ends
  passed : ∀ prototype, (passing prototype).Ends
  items : ∀ kind, (bodyItems kind).Ends
  units : fileUnits.Ends
  lookahead : ∀ ts bound steps, ts.length ≤ bound → ts.length < steps → ∀ beyond,
    opensPortsStep^[steps] beyond ts = opensPorts bound ts

theorem recursionsEnd : RecursionsEnd where
  expressions := ends_nesting
  operators _ _ := ends_extension
  lists := ends_afterCommas
  names := ends_whileAt nofun eats_dottedName
  ranges := ends_whileAt nofun eats_packedRange
  dimensions := ends_whileAt nofun eats_dimension
  attributes := ends_whileAt nofun eats_attributeGroup
  passed := ends_passing
  items := ends_bodyItems
  units := ends_fileUnits
  lookahead _ _ _ hbound hsteps beyond := opensPorts_bounded hbound hsteps beyond

end Loops

section Calls

/-- Wherever it is called the parser returns, and it has moved forward, over tokens before the
end. -/
def Settles (x : ParserM α) : Prop :=
  ∀ c s, c.Ready → ∃ a c' t ts, (x.task c).run s = ((a, c'), t) ∧ c.Passes ts c' ∧ c'.Ready

/-- Wherever it is called the parser consumes a token or reports an error. -/
def Progresses (x : ParserM α) : Prop :=
  ∀ c s a c' t, (x.task c).run s = ((a, c'), t) → c.consumed < c'.consumed ∨
    c.errors < c'.errors ∧ ∃ d ∈ (x.task c).emitted s, d.severity = .error

/-- Wherever it is called the parser leaves what begins with the first end of a text, or nothing. -/
def Exhausts (x : ParserM α) : Prop :=
  ∀ c s a c' t, (x.task c).run s = ((a, c'), t) → c'.rest = c.rest.dropWhile (·.kind ≠ .eof)

/-- A cursor under way corresponds to itself. -/
theorem Cursor.Ready.cursors (hc : c.Ready) :
    (Frame.starting c.file fun _ => True).Cursors c c := by
  have hsame (t : Token) : (Frame.starting c.file fun _ => True).Tokens t t :=
    ⟨rfl, rfl, ⟨⟨rfl, rfl⟩, trivial⟩, trivial, fun _ => trivial⟩
  exact .self hc rfl rfl rfl (fun _ => trivial) (fun t _ => hsame t) (fun t _ => hsame t)
    fun _ _ => ⟨⟨rfl, rfl⟩, trivial⟩

/-- Parsers that mirror themselves ask for nothing that is not there. -/
theorem settles_of_mirror {Q : Nat → α → α → Prop} {x : ParserM α}
    (h : ∀ file, Mirror (Frame.starting file fun _ => True) (Q file) x x) : Settles x := by
  intro c s hc
  have hserves : Serves (Frame.starting c.file fun _ => True) Pairing.free :=
    ⟨fun _ _ _ _ => trivial, fun _ => trivial, fun _ _ _ _ => trivial⟩
  rcases hrun : (x.task c).run s with ⟨⟨a, c'⟩, t⟩
  obtain ⟨ts, hpasses⟩ := Cursor.Passes.exists_run x c s
  obtain ⟨⟨-, hcursors⟩, -⟩ := ((h c.file).paired hserves hc.cursors).run (holds_free s _ s _)
  rw [hrun] at hpasses hcursors
  exact ⟨a, c', t, ts, rfl, hpasses, hcursors.started, hcursors.misuse⟩

/-- What has been emitted has been counted. -/
theorem progress_of_emitted {x : ParserM α} {a : α} (hrun : (x.task c).run s = ((a, c'), t))
    (hemitted : (x.task c).emitted s ≠ []) :
    c.errors < c'.errors ∧ ∃ d ∈ (x.task c).emitted s, d.severity = .error := by
  have herrors := errors_task x c s
  have hpos := List.length_pos_iff.mpr hemitted
  rw [hrun] at herrors
  obtain ⟨d, hd⟩ := List.exists_mem_of_ne_nil _ hemitted
  exact ⟨by dsimp only at herrors; omega, d, hd, severity_of_mem_task hd⟩

theorem progress_of_eats {x : ParserM α} {a : α} (hrun : (x.task c).run s = ((a, c'), t))
    (heats : Eats c.rest x) : c.consumed < c'.consumed := by
  obtain ⟨ts, hpasses⟩ := Cursor.Passes.exists_run x c s
  have hless := heats c s rfl
  rw [hrun] at hpasses hless
  exact hpasses.consumed_lt_iff.mpr hless

private theorem unaryOp?_of_isStuck {kind : Kind} (h : isStuck kind = true) :
    kind.unaryOp? = none := by
  cases kind <;> first | rfl | cases h

/-- An operand that begins with no token of its own is reported. -/
theorem emitted_operand (h : isStuck c.current = true) (expr : Nat → ParserM Expr) :
    ((operand expr).task c).emitted s ≠ [] := by
  have hreported : (noOperand.task c).emitted s ≠ [] := by
    rw [(noOperand_run c s).2]
    exact List.cons_ne_nil _ _
  rw [operand, emitted_bind Reads.look.run, Reads.look.quiet, List.nil_append,
    unaryOp?_of_isStuck h]
  dsimp only
  split <;> first
    | next hkind => rw [hkind] at h; cases h
    | exact hreported

theorem progresses_expression : Progresses expression := by
  intro c s e c' t hrun
  by_cases hstuck : isStuck c.current = true
  · refine .inr (progress_of_emitted hrun ?_)
    rcases hoperand : ((operand (expressionWithin c.rest.length)).task c).run s with ⟨⟨e', d⟩, u⟩
    rw [expression, emitted_bind Reads.remaining.run, expressionWithin, emitted_bind hoperand]
    simp [emitted_operand hstuck]
  · rw [current_of_rest rfl, Bool.not_eq_true] at hstuck
    have heats : Eats c.rest expression :=
      .kept (Silent.keeps fun _ _ => ⟨_, _, .remaining⟩) fun n => by
        rw [expressionWithin]
        exact (eats_operand hstuck _).bind
    exact .inl (progress_of_eats hrun heats)

theorem progresses_instantiation : Progresses instantiation := by
  intro c s stmt c' t hrun
  by_cases hname : c.current.isIdentifier = true
  · rw [current_of_rest rfl] at hname
    have heats : Eats c.rest instantiation :=
      .kept Silent.currentSpan.keeps fun _ => (Eats.nameOr hname).bind
    exact .inl (progress_of_eats hrun heats)
  · refine .inr (progress_of_emitted hrun ?_)
    have hmissing : (expectIdentifier.task c).emitted s ≠ [] := by
      rw [expectIdentifier, nameOr, emitted_bind Reads.look.run, if_neg hname]
      exact List.cons_ne_nil _ _
    rcases hmodule : (expectIdentifier.task c).run s with ⟨⟨name, d⟩, u⟩
    rw [instantiation, emitted_bind Reads.currentSpan.run, emitted_bind hmodule]
    simp [hmissing]

/-- Units are parsed up to the end. -/
theorem current_unitsWithin {bound : Nat} (hbound : c.rest.length ≤ bound) (s : Session) :
    (((unitsWithin bound).task c).run s).1.2.current = .eof := by
  induction bound generalizing c s with
  | zero => exact current_of_rest (List.length_eq_zero_iff.mp (Nat.le_zero.mp hbound))
  | succ bound ih =>
    have hhead : c.current = headKind c.rest := current_of_rest rfl
    rw [unitsWithin, run_bind Reads.current.run]
    split
    next hend => exact hend
    next kind hkind =>
      rcases hunit : ((designUnit kind).task c).run s with ⟨⟨first, d⟩, u⟩
      have hless := eats_designUnit (hhead.symm.trans hkind) c s rfl
      rw [hunit] at hless
      rcases hmore : ((unitsWithin bound).task d).run u with ⟨⟨more, e⟩, v⟩
      have hend := ih (c := d) (by dsimp only at hless; omega) u
      rw [hmore] at hend
      rw [run_bind hunit, run_bind hmore]
      exact hend
    next heof hunit =>
      rw [hhead] at heof hunit
      rcases hreport : ((report .expectedUnit).task c).run s with ⟨⟨⟨⟩, d⟩, u⟩
      have hsame := keeps_report .expectedUnit c s
      rw [hreport] at hsame
      have hless := eats_betweenUnits heof hunit d u hsame
      have hskip := skipUntil_run Kind.isUnitStart d u
      rw [hskip] at hless
      rw [run_bind hreport, run_bind hskip]
      exact ih (by dsimp only at hless; omega) u

theorem exhausts_sourceText : Exhausts sourceText := by
  intro c s text c' t hrun
  rcases hunits : ((unitsWithin c.rest.length).task c).run s with ⟨⟨units, d⟩, u⟩
  have hend := current_unitsWithin (Nat.le_refl c.rest.length) s
  rw [hunits] at hend
  have hlast : c'.current = .eof := by
    rw [sourceText, run_bind Reads.currentSpan.run, run_bind Reads.look.run,
      run_bind Reads.remaining.run, run_bind hunits] at hrun
    have hkeeps : Keeps (do return (⟨units, ← spanSince c.currentSpan c.consumed⟩ : SourceText)) :=
      (Silent.spanSince _ _).keeps.bind fun _ => (Silent.pure _).keeps
    have hsame := hkeeps d u
    rw [hrun] at hsame
    rw [current_of_rest hsame, ← current_of_rest rfl]
    exact hend
  obtain ⟨ts, hpasses⟩ := Cursor.Passes.exists_run sourceText c s
  rw [hrun] at hpasses
  have hbefore : ∀ u ∈ ts, decide (u.kind ≠ .eof) = true := fun u hu =>
    decide_eq_true (hpasses.inner u hu)
  rw [hpasses.rest, List.dropWhile_append_of_pos hbefore]
  rw [current_of_rest rfl] at hlast
  cases hrest : c'.rest with
  | nil => rfl
  | cons u us =>
    have hu : u.kind = .eof := by rwa [hrest] at hlast
    rw [List.dropWhile_cons_of_neg (by simp [hu])]

/-- Every loop and every nest of parsers comes to an end within the tokens ahead. So an expression, a
statement and a whole file are parsed whatever the tokens are, by a move forward over tokens before
the first end of a text. An expression or a statement that consumes no token reports an error, and
the parse of a file stops at the end only. -/
theorem parsers_terminate :
    RecursionsEnd ∧
      (Settles expression ∧ Settles instantiation ∧ Settles sourceText) ∧
      Exhausts sourceText ∧ Progresses expression ∧ Progresses instantiation :=
  ⟨recursionsEnd,
    ⟨settles_of_mirror fun _ => mirror_expression, settles_of_mirror fun _ => mirror_instantiation,
      settles_of_mirror fun _ => mirror_sourceText trivial⟩,
    exhausts_sourceText, progresses_expression, progresses_instantiation⟩

end Calls

end Netlist.Parser
