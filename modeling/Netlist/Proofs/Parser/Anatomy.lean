import Netlist.Proofs.Parser.Accepts
import Netlist.Proofs.Parser.Blind.Unit
import Netlist.Proofs.Run.Openings
import Netlist.Proofs.Token.Stretches

/-!
The tokens of a unit. Behind the opening word stands the header, which is skipped up to its
semicolon; then come the items and semicolons that stand alone, and last the closing word with its
label. The span of an item runs from the first token it consumed to the last, whichever way the item
was parsed.
-/
namespace Netlist

open Syntax

/-- Where an item stands. -/
def Syntax.Item.span : Item → Span
  | .instantiation stmt => stmt.span
  | .skipped _ span => span
  | .error span => span

/-- A stretch of a body is an item over its tokens or a semicolon alone. -/
def Stretch.FitsBody (file : Nat) (s : Stretch Item) : Prop :=
  match s.value with
  | some item => item.span.Over file s.tokens
  | none => ∃ t, t.kind = .semicolon ∧ s.tokens = [t]

/-- What is skipped behind the opening word, where `after` follows: all up to the first semicolon,
or up to a word that opens or closes a unit or the end of the text. -/
def IsHeader (header after : List Token) : Prop :=
  ∃ skipped, (∀ t ∈ skipped, t.kind ≠ .semicolon ∧ t.kind.isUnitBoundary = false) ∧
    ((∃ t, t.kind = .semicolon ∧ header = skipped ++ [t]) ∨
      header = skipped ∧ ∀ t ∈ after.head?, t.kind ≠ .eof → t.kind.isUnitBoundary = true)

/-- A colon and a name, of which the name or both may be missing. -/
def IsLabel (label : List Token) : Prop :=
  label = [] ∨ ∃ colon, colon.kind = .colon ∧
    (label = [colon] ∨ ∃ name, name.kind.isIdentifier = true ∧ label = [colon, name])

/-- The closing word with its label, or nothing where it is missing. -/
def IsClosing (kind : UnitKind) (closing : List Token) : Prop :=
  closing = [] ∨ ∃ word label, word.kind = .unitEnd kind ∧ IsLabel label ∧ closing = word :: label

/-- The tokens of a unit, part by part. -/
structure Anatomy (file : Nat) (unit : DesignUnit) (opener : Token) (header : List Token)
    (body : List (Stretch Item)) (closing : List Token) : Prop where
  opens : opener.kind = .unitStart unit.kind
  heads : IsHeader header (body.flatMap Stretch.tokens ++ closing)
  fits : ∀ b ∈ body, b.FitsBody file
  items : unit.items = body.filterMap Stretch.value
  closes : IsClosing unit.kind closing
  span : unit.span.Over file (opener :: (header ++ body.flatMap Stretch.tokens ++ closing))

/-- The items of a unit where its body is: each token of the body lies in the item of its stretch
alone, no item is empty, and they stand one behind the other. -/
structure ItemsPlaced (unit : DesignUnit) (body : List (Stretch Item)) : Prop where
  alone : ∀ b ∈ body, ∀ t ∈ b.tokens,
    unit.items.filter (fun item => t.liesIn item.span) = b.value.toList
  filled : ∀ item ∈ unit.items, item.span.start < item.span.stop
  ordered : unit.items.Pairwise fun a b => a.span.stop ≤ b.span.start

theorem Anatomy.itemsPlaced {file : Nat} {unit : DesignUnit} {opener : Token}
    {header closing : List Token} {body : List (Stretch Item)}
    (h : Anatomy file unit opener header body closing)
    (hplaced : Placed (opener :: (header ++ body.flatMap Stretch.tokens ++ closing))) :
    ItemsPlaced unit body := by
  have hinner : Placed (body.flatMap Stretch.tokens) := by
    rw [← List.cons_append, ← List.cons_append, placed_append, placed_append] at hplaced
    exact hplaced.1.2.1
  have hover : ∀ b ∈ body, ∀ item ∈ b.value, item.span.Over file b.tokens := by
    intro b hb item hitem
    have hfits := h.fits b hb
    rw [Stretch.FitsBody, hitem] at hfits
    exact hfits
  constructor
  · intro b hb t ht
    rw [h.items]
    exact filter_liesIn hinner hover hb ht
  · rw [h.items]
    exact filled_of_over hinner hover
  · rw [h.items]
    exact pairwise_of_over hinner hover

namespace Parser

variable {α β : Type} {start : Span} {φ : α → Span} {all : List Token} {c c' : Cursor}

/-- What the parser gives runs from `start` to the token consumed last. -/
def Closes (start : Span) (φ : α → Span) (x : ParserM α) : Prop :=
  ∀ c s a c' t p, c.file = start.file → (x.task c).run s = ((a, c'), t) → c'.prev = some p →
    c'.consumed ≠ 0 → φ a = start.cover (p.span start.file)

namespace Closes

theorem next {x : ParserM β} {f : β → ParserM α} (hf : ∀ b, Closes start φ (f b)) :
    Closes start φ (x >>= f) := by
  intro c s a c'' u p hfile hrun hprev hconsumed
  rcases hfirst : (x.task c).run s with ⟨⟨b, c'⟩, t⟩
  obtain ⟨ts, hpasses⟩ := Cursor.Passes.exists_run x c s
  rw [hfirst] at hpasses
  rw [run_bind hfirst] at hrun
  exact hf b c' t a c'' u p (hpasses.file.trans hfile) hrun hprev hconsumed

theorem spanFrom {g : Span → α} (hg : ∀ s, φ (g s) = s) :
    Closes start φ (do return g (← spanFrom start)) := by
  intro c s a c' t p hfile hrun hprev hconsumed
  rcases hspan : ((Parser.spanFrom start).task c).run s with ⟨⟨span, d⟩, u⟩
  obtain ⟨ts, hpasses⟩ := Cursor.Passes.exists_run (Parser.spanFrom start) c s
  rw [hspan] at hpasses
  rw [run_bind hspan] at hrun
  cases hrun
  have hsame : c'.rest = c.rest := by
    have hkeeps := (Silent.spanFrom start).keeps c s
    rwa [hspan] at hkeeps
  have hnil : ts = [] := List.self_eq_append_left.mp (hsame.trans hpasses.rest)
  subst hnil
  rw [hpasses.consumed] at hconsumed
  have hbefore : c.prev = some p := hpasses.prev.symm.trans hprev
  rw [(spanFrom_run hbefore hconsumed start hfile.symm s).1] at hspan
  cases hspan
  rw [hg, hfile]

end Closes

/-- The same where `start` is the next token. -/
def ClosesHere (φ : α → Span) (x : ParserM α) : Prop :=
  ∀ c s a c' t p, (x.task c).run s = ((a, c'), t) → c'.prev = some p → c'.consumed ≠ 0 →
    φ a = c.currentSpan.cover (p.span c.file)

theorem file_currentSpan (c : Cursor) : c.currentSpan.file = c.file := by
  unfold Cursor.currentSpan
  split <;> rfl

theorem ClosesHere.currentSpan {f : Span → ParserM α} (hf : ∀ start, Closes start φ (f start)) :
    ClosesHere φ (currentSpan >>= f) := by
  intro c s a c' t p hrun hprev hconsumed
  have hclosed := hf c.currentSpan c s a c' t p (file_currentSpan c).symm hrun hprev hconsumed
  rwa [file_currentSpan] at hclosed

theorem closesHere_instantiation : ClosesHere Instantiation.span instantiation :=
  .currentSpan fun _ => .next fun _ => .next fun _ => .next fun _ => .next fun _ => .next fun _ =>
    .spanFrom fun _ => rfl

theorem closesHere_instantiationItem : ClosesHere Item.span instantiationItem := by
  intro c s item c' t p hrun hprev hconsumed
  rcases hstmt : (instantiation.task c).run s with ⟨⟨stmt, d⟩, u⟩
  rw [instantiationItem, run_bind Reads.currentSpan.run, run_bind Reads.look.run,
    run_bind hstmt, run_bind Reads.look.run] at hrun
  by_cases hmore : d.errors > c.errors
  · rw [if_pos hmore] at hrun
    obtain ⟨ts, hpasses⟩ := Cursor.Passes.exists_run instantiation c s
    rw [hstmt] at hpasses
    have hcloses : Closes c.currentSpan Item.span
        (do return Item.error (← spanFrom c.currentSpan)) := .spanFrom fun _ => rfl
    have hspan := hcloses d u item c' t p (hpasses.file.trans (file_currentSpan c).symm) hrun hprev
      hconsumed
    rwa [file_currentSpan] at hspan
  · rw [if_neg hmore] at hrun
    cases hrun
    exact closesHere_instantiation c s stmt c' t p hstmt hprev hconsumed

theorem closes_otherItem (c : Cursor) : Closes c.currentSpan Item.span (otherItem c) := by
  have hbroken : Closes c.currentSpan Item.span (brokenItem c) :=
    .next fun _ => .next fun _ => .next fun _ => .spanFrom fun _ => rfl
  unfold otherItem
  split
  · refine .next fun _ => .next fun d => ?_
    split
    · exact .spanFrom fun _ => rfl
    · exact hbroken
  · exact hbroken

section Stretches

/-- The next token is consumed. -/
theorem Cursor.Passes.opener {o : Token} {ts : List Token} (hrest : c.rest = o :: ts)
    (heof : o.kind ≠ .eof) : c.Passes [o] c.advance := by
  simp only [Cursor.advance, hrest, if_neg heof]
  exact ⟨rfl, hrest, rfl, rfl, List.forall_mem_singleton.mpr heof⟩

/-- Something has been consumed, so there is a token consumed last. -/
theorem Cursor.Passes.exists_last {o : Token} {ts : List Token} {d : Cursor} (h : c.Passes [o] d)
    (h' : d.Passes ts c') : ∃ last, c'.file = c.file ∧ c'.prev = some last ∧ c'.consumed ≠ 0 := by
  have hwhole := h.trans h'
  obtain ⟨last, hlast⟩ : ∃ last, ([o] ++ ts).getLast? = some last :=
    Option.isSome_iff_exists.mp (List.getLast?_isSome.mpr (List.cons_ne_nil o ts))
  refine ⟨last, hwhole.file, ?_, ?_⟩
  · rw [hwhole.prev, hlast, Option.some_or]
  · rw [hwhole.consumed, List.singleton_append, List.length_cons]
    exact Nat.succ_ne_zero _

theorem Cursor.Passes.stands {ts : List Token} (h : c.Passes ts c') (hc : c.Stands all) :
    c'.Stands all := hc.ahead_of h.rest h.inner

variable (hall : all.Pairwise Token.Before)

include hall

/-- Tokens that have been consumed stand before the end. -/
theorem Cursor.Passes.placed {ts : List Token} (h : c.Passes ts c') (hc : c.Stands all) :
    Placed ts := by
  have hrest := hall.sublist hc.ahead.sublist
  rw [h.rest, List.pairwise_append] at hrest
  obtain ⟨u, us, hnext⟩ := (h.stands hc).exists_next
  refine ⟨hrest.1.imp fun h => h.stop, fun t ht => ?_⟩
  exact (hrest.2.2 t ht u (by rw [hnext]; exact List.mem_cons_self)).filled

/-- What runs from the next token to the one consumed last runs over the tokens between. -/
theorem over_of_cover {ts : List Token} {span : Span} (h : c.Passes ts c') (hc : c.Stands all)
    (hne : ts ≠ []) (hspan : ∀ p, c'.prev = some p → c'.consumed ≠ 0 →
      span = c.currentSpan.cover (p.span c.file)) : span.Over c.file ts := by
  obtain ⟨first, us, rfl⟩ := List.exists_cons_of_ne_nil hne
  obtain ⟨last, hlast⟩ : ∃ last, (first :: us).getLast? = some last :=
    Option.isSome_iff_exists.mp (List.getLast?_isSome.mpr hne)
  have hwhole : Span.Over c.file ⟨c.file, first.start, last.stop⟩ (first :: us) :=
    ⟨first, last, rfl, hlast, rfl⟩
  have hplaced := h.placed hall hc
  have hfirst := hwhole.liesIn hplaced List.mem_cons_self
  have hinside := hwhole.liesIn hplaced (List.mem_of_getLast? hlast)
  simp only [Token.liesIn, Bool.and_eq_true, decide_eq_true_eq] at hfirst hinside
  have hcurrent : c.currentSpan = first.span c.file :=
    currentSpan_of_rest h.rest rfl
  have hconsumed : c'.consumed ≠ 0 := by
    rw [h.consumed, List.length_cons]
    exact Nat.succ_ne_zero _
  have hprev : c'.prev = some last := by rw [h.prev, hlast, Option.some_or]
  rw [hspan last hprev hconsumed, hcurrent, Span.cover, Token.span, Token.span,
    Nat.min_eq_left hinside.1, Nat.max_eq_right hfirst.2]
  exact hwhole

theorem stretch_item? (hc : c.Stands all) (heof : c.current ≠ .eof) (s : Session) :
    ∃ o c' t ts, ((item? c).task c).run s = ((o, c'), t) ∧ c.Passes ts c' ∧ ts ≠ [] ∧
      Stretch.FitsBody c.file ⟨ts, o⟩ := by
  rcases hrun : ((item? c).task c).run s with ⟨⟨o, c'⟩, t⟩
  obtain ⟨ts, hpasses⟩ := Cursor.Passes.exists_run (item? c) c s
  have hless := consumed_lt_item? heof (s := s)
  rw [hrun] at hpasses hless
  have hne : ts ≠ [] := by
    rintro rfl
    rw [hpasses.consumed] at hless
    exact Nat.lt_irrefl _ hless
  refine ⟨o, c', t, ts, rfl, hpasses, hne, ?_⟩
  by_cases hempty : c.current = .semicolon
  · obtain ⟨u, r, hrest⟩ := hc.exists_next
    have hu : u.kind = .semicolon := (current_of_rest hrest).symm.trans hempty
    obtain ⟨d, hd, hreads⟩ := Reads.eat (s := s) hrest hu (by decide)
    rw [item?, run_bind hreads.run] at hrun
    cases hrun
    have hts : ts = [u] := by
      have hsame := hpasses.rest
      rw [hrest, hd] at hsame
      exact List.append_cancel_right (hsame.symm : ts ++ r = [u] ++ r)
    exact ⟨u, hu, hts⟩
  · rw [item?, run_bind (Reads.eat_other hempty).run] at hrun
    simp only [Bool.false_eq_true, if_false] at hrun
    have hover {item : Item} (hspan : ∀ p, c'.prev = some p → c'.consumed ≠ 0 →
        item.span = c.currentSpan.cover (p.span c.file)) : item.span.Over c.file ts :=
      over_of_cover hall hpasses hc hne hspan
    split at hrun
    · rcases hitem : (instantiationItem.task c).run s with ⟨⟨item, d⟩, u⟩
      have hmap : ((some <$> instantiationItem).task c).run s = ((some item, d), u) :=
        run_bind hitem
      rw [hmap] at hrun
      cases hrun
      exact hover fun p => closesHere_instantiationItem c s item c' t p hitem
    · rcases hitem : ((otherItem c).task c).run s with ⟨⟨item, d⟩, u⟩
      have hmap : ((some <$> otherItem c).task c).run s = ((some item, d), u) := run_bind hitem
      rw [hmap] at hrun
      cases hrun
      refine hover fun p hprev hconsumed => ?_
      have hspan := closes_otherItem c c s item c' t p (file_currentSpan c).symm hitem hprev
        hconsumed
      rwa [file_currentSpan] at hspan

/-- The body of a unit falls into items and semicolons. -/
theorem stretch_itemsWithin (kind : UnitKind) (bound : Nat) (hc : c.Stands all)
    (hbound : c.rest.length ≤ bound) (s : Session) :
    ∃ items c' t, ∃ body : List (Stretch Item),
      ((itemsWithin kind bound).task c).run s = ((items, c'), t) ∧
      c.Passes (body.flatMap Stretch.tokens) c' ∧ items = body.filterMap Stretch.value ∧
      (∀ b ∈ body, b.FitsBody c.file) ∧
      (c'.current = .unitEnd kind ∨ c'.current = .eof ∨ c'.current.isUnitStart = true) := by
  induction bound generalizing c s with
  | zero =>
    obtain ⟨u, r, hrest⟩ := hc.exists_next
    rw [hrest] at hbound
    cases hbound
  | succ bound ih =>
    rw [itemsWithin, run_bind Reads.look.run]
    split
    next hends =>
      simp only [Bool.or_eq_true, decide_eq_true_eq] at hends
      exact ⟨[], c, s, [], rfl, .stay rfl rfl rfl rfl, rfl, List.forall_mem_nil _,
        or_assoc.mp hends⟩
    next hinside =>
      simp only [Bool.or_eq_true, decide_eq_true_eq, not_or] at hinside
      obtain ⟨o, d, u, ts, hitem, hpasses, hne, hfits⟩ :=
        stretch_item? hall hc hinside.1.2 s
      have hshorter : d.rest.length ≤ bound := by
        have hpos := List.length_pos_iff.mpr hne
        rw [hpasses.rest, List.length_append] at hbound
        omega
      obtain ⟨items, c', t, body, hrest, hpasses', hitems, hbody, hends⟩ :=
        ih (hpasses.stands hc) hshorter u
      refine ⟨o.toList ++ items, c', t, ⟨ts, o⟩ :: body, ?_, hpasses.trans hpasses', ?_, ?_, hends⟩
      · rw [run_bind hitem, run_bind hrest]
        rfl
      · rw [hitems, List.filterMap_cons]
        cases o <;> rfl
      · rw [hpasses.file] at hbody
        exact List.forall_mem_cons.mpr ⟨hfits, hbody⟩

end Stretches

section Parts

/-- A name is consumed, or reported as missing where another token stands. -/
theorem passes_expectIdentifier (c : Cursor) (s : Session) :
    ∃ name c' t ts, (expectIdentifier.task c).run s = ((name, c'), t) ∧ c.Passes ts c' ∧
      ((∃ u, u.kind.isIdentifier = true ∧ ts = [u]) ∧ (expectIdentifier.task c).emitted s = [] ∨
        ts = [] ∧ (expectIdentifier.task c).emitted s =
          [(SyntaxError.expectedName c.current).diagnostic c.currentSpan]) := by
  by_cases hname : c.current.isIdentifier = true
  · obtain ⟨u, r, hrest⟩ : ∃ u r, c.rest = u :: r := by
      cases hrest : c.rest with
      | nil => rw [current_of_rest hrest] at hname; cases hname
      | cons u r => exact ⟨u, r, rfl⟩
    rw [current_of_rest hrest] at hname
    obtain ⟨name, c', t, hreads, -⟩ := Accepts.nameOr hname c s rfl hrest
    exact ⟨name, c', t, [u], hreads.run, hreads.passes, .inl ⟨⟨u, hname, rfl⟩, hreads.quiet⟩⟩
  · have hreport := report_run (.expectedName c.current) c s
    rcases hplaceholder : (placeholder.task { c with errors := c.errors + 1 }).run
      (s.emit ((SyntaxError.expectedName c.current).diagnostic c.currentSpan)) with ⟨⟨name, c'⟩, t⟩
    have hrun : (expectIdentifier.task c).run s = ((name, c'), t) := by
      rw [expectIdentifier, nameOr, run_bind Reads.look.run, if_neg hname, run_bind hreport,
        hplaceholder]
    have hemitted : (expectIdentifier.task c).emitted s =
        [(SyntaxError.expectedName c.current).diagnostic c.currentSpan] := by
      rw [expectIdentifier, nameOr, emitted_bind Reads.look.run, if_neg hname,
        emitted_bind hreport]
      rfl
    obtain ⟨ts, hpasses⟩ := Cursor.Passes.exists_run expectIdentifier c s
    rw [hrun] at hpasses
    refine ⟨name, c', t, ts, hrun, hpasses, .inr ⟨?_, hemitted⟩⟩
    have hkeeps : Keeps placeholder :=
      (keeps_intern _).bind fun _ => Silent.currentSpan.keeps.bind fun _ => (Silent.pure _).keeps
    have hsame := hkeeps { c with errors := c.errors + 1 }
      (s.emit ((SyntaxError.expectedName c.current).diagnostic c.currentSpan))
    rw [hplaceholder] at hsame
    exact List.self_eq_append_left.mp (Eq.trans hsame hpasses.rest)

/-- Skipping ends before a token that stops it. -/
theorem headKind_skipUntil (hc : c.Stands all) (stop : Kind → Bool) :
    headKind (c.skipUntil stop).rest = .eof ∨ stop (headKind (c.skipUntil stop).rest) = true := by
  obtain ⟨u, r, hrest⟩ := ((Cursor.Passes.skipUntil c stop).stands hc).exists_next
  have hstops := List.head?_dropWhile_not
    (fun t : Token => decide (t.kind ≠ .eof) && !stop t.kind) c.rest
  have hdrop : c.rest.dropWhile (fun t => decide (t.kind ≠ .eof) && !stop t.kind) = u :: r := hrest
  rw [hdrop] at hstops
  rw [hrest]
  simp only [List.head?_cons, ne_eq, decide_not, Bool.and_eq_false_iff, Bool.not_eq_false',
    decide_eq_true_eq] at hstops
  exact hstops

/-- What the skipping of a header stops at. -/
private def endsHeader (kind : Kind) : Bool := kind = .semicolon || kind.isUnitBoundary

private theorem endsHeader_of_isIdentifier {kind : Kind} (h : kind.isIdentifier = true) :
    endsHeader kind = false := by
  cases kind <;> first | rfl | cases h

/-- The header of a unit: its name if there is one, and what is skipped. -/
theorem passes_header (hc : c.Stands all) (s : Session) :
    ∃ name c' c'' t header, (expectIdentifier.task c).run s = ((name, c'), t) ∧
      (recoverToSemicolon.task c').run t = (((), c''), t) ∧ c.Passes header c'' ∧
      IsHeader header c''.rest := by
  obtain ⟨name, c', t, named, hname, hpasses, hnamed⟩ := passes_expectIdentifier c s
  have hc' := hpasses.stands hc
  have hskip := skipUntil_run endsHeader c' t
  have hends := headKind_skipUntil hc' endsHeader
  have hskipped := hpasses.trans (Cursor.Passes.skipUntil c' endsHeader)
  have hd := hskipped.stands hc
  have hplain : ∀ u ∈ named ++ c'.rest.takeWhile (fun u => u.kind ≠ .eof && !endsHeader u.kind),
      u.kind ≠ .semicolon ∧ u.kind.isUnitBoundary = false := by
    intro u hu
    have hpassed : endsHeader u.kind = false := by
      rcases List.mem_append.mp hu with hu | hu
      · rcases hnamed with ⟨⟨v, hv, rfl⟩, -⟩ | ⟨rfl, -⟩
        · rw [List.mem_singleton.mp hu]
          exact endsHeader_of_isIdentifier hv
        · cases hu
      · have hpassed := List.mem_takeWhile_imp hu
        rw [Bool.and_eq_true, Bool.not_eq_true'] at hpassed
        exact hpassed.2
    simpa [endsHeader] using hpassed
  generalize named ++ _ = skipped at hskipped hplain
  generalize c'.skipUntil endsHeader = d at hskip hends hskipped hd
  have hrun {e : Cursor} {found : Bool} (heat : ((eat .semicolon).task d).run t = ((found, e), t)) :
      (recoverToSemicolon.task c').run t = (((), e), t) := by
    show ((skipUntil endsHeader >>= fun _ => eat .semicolon >>= fun _ => pure ()).task c').run t = _
    rw [run_bind hskip, run_bind heat]
    rfl
  obtain ⟨u, r, hrest⟩ := hd.exists_next
  by_cases hsemicolon : u.kind = .semicolon
  · obtain ⟨e, he, hreads⟩ := Reads.eat (s := t) hrest hsemicolon (by decide)
    exact ⟨name, c', e, t, skipped ++ [u], hname, hrun hreads.run, hskipped.trans hreads.passes,
      skipped, hplain, .inl ⟨u, hsemicolon, rfl⟩⟩
  · have hcurrent : d.current ≠ .semicolon := by
      rw [current_of_rest hrest]
      exact hsemicolon
    refine ⟨name, c', d, t, skipped, hname, hrun (Reads.eat_other hcurrent).run, hskipped, skipped,
      hplain, .inr ⟨rfl, ?_⟩⟩
    intro v hv heof
    rw [hrest] at hv hends
    obtain rfl := Option.some.inj hv
    simpa [endsHeader, headKind, heof, hsemicolon] using hends

/-- The front of a unit: its header and its body. -/
theorem passes_unitFront (hall : all.Pairwise Token.Before) (kind : UnitKind) (hc : c.Stands all)
    (s : Session) :
    ∃ name items c' t header, ∃ body : List (Stretch Item),
      ((unitFront kind).task c).run s = (((name, items), c'), t) ∧
      c.Passes (header ++ body.flatMap Stretch.tokens) c' ∧
      IsHeader header (body.flatMap Stretch.tokens ++ c'.rest) ∧
      items = body.filterMap Stretch.value ∧ (∀ b ∈ body, b.FitsBody c.file) ∧
      (c'.current = .unitEnd kind ∨ c'.current = .eof ∨ c'.current.isUnitStart = true) := by
  obtain ⟨name, d, e, t, header, hname, hrecover, hpasses, hheader⟩ := passes_header hc s
  obtain ⟨items, c', u, body, hitems, hpasses', hvalues, hbody, hends⟩ :=
    stretch_itemsWithin hall kind e.rest.length (hpasses.stands hc) (Nat.le_refl _) t
  refine ⟨name, items, c', u, header, body, ?_, hpasses.trans hpasses', ?_, hvalues, ?_, hends⟩
  · rw [unitFront, run_bind hname, run_bind hrecover, run_bind Reads.remaining.run,
      run_bind hitems]
    rfl
  · rwa [← hpasses'.rest]
  · rwa [← hpasses.file]

/-- A unit is its front and what closes it. -/
theorem unitBody_run {kind : UnitKind} {name : Identifier} {items : List Item} {s t : Session}
    (h : ((unitFront kind).task c).run s = (((name, items), c'), t)) :
    ((unitBody kind).task c).run s =
        ((do expect (.unitEnd kind); return (name, items, ← endLabel?) : ParserM _).task c').run t ∧
      ((unitBody kind).task c).emitted s = ((unitFront kind).task c).emitted s ++
        ((do expect (.unitEnd kind); return (name, items, ← endLabel?) :
          ParserM _).task c').emitted t := by
  rcases hname : (expectIdentifier.task c).run s with ⟨⟨name', d⟩, u⟩
  rcases hrecover : (recoverToSemicolon.task d).run u with ⟨⟨_, e⟩, v⟩
  rcases hitems : ((itemsWithin kind e.rest.length).task e).run v with ⟨⟨items', f⟩, w⟩
  rw [unitFront, run_bind hname, run_bind hrecover, run_bind Reads.remaining.run,
    run_bind hitems] at h
  cases h
  rw [unitBody, unitFront, run_bind hname, run_bind hrecover, run_bind Reads.remaining.run,
    run_bind hitems, emitted_bind hname, emitted_bind hrecover, emitted_bind Reads.remaining.run,
    emitted_bind hitems, emitted_bind hname, emitted_bind hrecover,
    emitted_bind Reads.remaining.run, emitted_bind hitems]
  refine ⟨rfl, ?_⟩
  simp only [List.append_assoc]
  rfl

/-- What is reported about a label without a name, before the tokens that follow. -/
def labelReports (file : Nat) (closing rest : List Token) : List Diagnostic :=
  if closing.getLast?.any (·.kind = .colon) then
    (rest.head?.map fun t => (SyntaxError.expectedName t.kind).diagnostic (t.span file)).toList
  else []

/-- A label behind the closing word. -/
theorem passes_endLabel? (hc : c.Stands all) (s : Session) :
    ∃ label c' t ts, (endLabel?.task c).run s = ((label, c'), t) ∧ c.Passes ts c' ∧ IsLabel ts ∧
      (headKind c.rest ≠ .colon → ts = []) ∧
      (endLabel?.task c).emitted s = labelReports c.file ts c'.rest := by
  obtain ⟨u, r, hrest⟩ := hc.exists_next
  by_cases hcolon : u.kind = .colon
  · obtain ⟨d, hd, hreads⟩ := Reads.eat (s := s) hrest hcolon (by decide)
    have hd' := hreads.passes.stands hc
    obtain ⟨name, c', t, ts, hname, hpasses, hts⟩ := passes_expectIdentifier _ s
    have hmap : ((some <$> expectIdentifier).task d).run s = ((some name, c'), t) := run_bind hname
    have hquiet : ((some <$> expectIdentifier).task d).emitted s =
        (expectIdentifier.task d).emitted s :=
      (emitted_bind hname).trans (List.append_nil _)
    refine ⟨some name, c', t, [u] ++ ts, ?_, hreads.passes.trans hpasses, ?_, ?_, ?_⟩
    · rw [endLabel?, after, run_bind hreads.run]
      exact hmap
    · refine .inr ⟨u, hcolon, ?_⟩
      rcases hts with ⟨⟨v, hv, rfl⟩, -⟩ | ⟨rfl, -⟩
      · exact .inr ⟨v, hv, rfl⟩
      · exact .inl rfl
    · rw [hrest]
      exact fun hother => absurd hcolon hother
    · rw [endLabel?, after, emitted_bind hreads.run, hreads.quiet, List.nil_append, if_pos rfl,
        hquiet]
      rcases hts with ⟨⟨v, hv, rfl⟩, hemitted⟩ | ⟨rfl, hemitted⟩
      · have hother : v.kind ≠ .colon := by
          intro hother
          rw [hother] at hv
          cases hv
        rw [hemitted]
        simp [labelReports, hother]
      · obtain ⟨w, r', hnext⟩ := hd'.exists_next
        have hsame : c'.rest = w :: r' := hpasses.rest.symm.trans hnext
        rw [hemitted, current_of_rest hnext, currentSpan_of_rest hnext hreads.file, hsame]
        simp [labelReports, hcolon, headKind]
  · have hother : c.current ≠ .colon := by
      rw [current_of_rest hrest]
      exact hcolon
    refine ⟨none, c, s, [], ?_, .stay rfl rfl rfl rfl, .inl rfl, fun _ => rfl, ?_⟩
    · rw [endLabel?, after, run_bind (Reads.eat_other hother).run]
      rfl
    · rw [endLabel?, after, emitted_bind (Reads.eat_other hother).run,
        (Reads.eat_other hother).quiet]
      rfl

/-- What closes a unit, from where its body ends. -/
theorem passes_closing {kind : UnitKind} (hc : c.Stands all)
    (hends : c.current = .unitEnd kind ∨ c.current = .eof ∨ c.current.isUnitStart = true)
    (name : Identifier) (items : List Item) (s : Session) :
    ∃ label c' t closing ds,
      ((do expect (.unitEnd kind); return (name, items, ← endLabel?) : ParserM _).task c).run s =
        (((name, items, label), c'), t) ∧
      c.Passes closing c' ∧ IsClosing kind closing ∧
      (closing = [] → headKind c'.rest = .eof ∨ (headKind c'.rest).isUnitStart = true) ∧
      ((do expect (.unitEnd kind); return (name, items, ← endLabel?) : ParserM _).task c).emitted
        s = ds ++ labelReports c.file closing c'.rest ∧
      ∀ d ∈ ds, d.span = c.currentSpan := by
  obtain ⟨u, r, hrest⟩ := hc.exists_next
  have hcurrent : c.current = u.kind := current_of_rest hrest
  by_cases hword : u.kind = .unitEnd kind
  · obtain ⟨d, hd, hreads⟩ := Reads.eat (s := s) hrest hword ⟨nofun, nofun⟩
    have hexpect : ((expect (.unitEnd kind)).task c).run s = (((), d), s) := run_bind hreads.run
    have hquiet : ((expect (.unitEnd kind)).task c).emitted s = [] := by
      rw [expect, emitted_bind hreads.run, hreads.quiet]
      rfl
    obtain ⟨label, c', t, ts, hlabel, hpasses, hts, -, hemitted⟩ :=
      passes_endLabel? (hreads.passes.stands hc) s
    refine ⟨label, c', t, u :: ts, [], ?_, hreads.passes.trans hpasses, ?_, nofun, ?_, nofun⟩
    · rw [run_bind hexpect, run_bind hlabel]
      rfl
    · exact .inr ⟨u, ts, hword, hts, rfl⟩
    · have hsame : labelReports c.file (u :: ts) c'.rest = labelReports d.file ts c'.rest := by
        rw [labelReports, labelReports, hreads.file]
        cases ts with
        | nil => simp [hword]
        | cons v ts => rw [List.getLast?_cons_cons]
      rw [emitted_bind hexpect, emitted_bind hlabel, hquiet, hemitted, hsame]
      exact List.append_nil _
  · have hother : c.current ≠ .unitEnd kind := by rwa [hcurrent]
    have hopen : headKind c.rest = .eof ∨ (headKind c.rest).isUnitStart = true := by
      rw [← current_of_rest rfl]
      exact hends.resolve_left hother
    have hcolon : headKind c.rest ≠ .colon := by
      intro hcolon
      rw [hcolon] at hopen
      rcases hopen with h | h <;> cases h
    have hexpect : ((expect (.unitEnd kind)).task c).run s =
        (((), { c with errors := c.errors + 1 }),
          s.emit ((SyntaxError.expected (.unitEnd kind) c.current).diagnostic c.currentSpan)) := by
      rw [expect, run_bind (Reads.eat_other hother).run]
      rfl
    have htold : ((expect (.unitEnd kind)).task c).emitted s =
        [(SyntaxError.expected (.unitEnd kind) c.current).diagnostic c.currentSpan] := by
      rw [expect, emitted_bind (Reads.eat_other hother).run, (Reads.eat_other hother).quiet]
      rfl
    have hstay : c.Passes [] { c with errors := c.errors + 1 } := .stay rfl rfl rfl rfl
    obtain ⟨label, c', t, ts, hlabel, hpasses, -, hnone, hemitted⟩ :=
      passes_endLabel? (hstay.stands hc)
        (s.emit ((SyntaxError.expected (.unitEnd kind) c.current).diagnostic c.currentSpan))
    obtain rfl := hnone hcolon
    refine ⟨label, c', t, [],
      [(SyntaxError.expected (.unitEnd kind) c.current).diagnostic c.currentSpan], ?_,
      hstay.trans hpasses, .inl rfl, fun _ => ?_, ?_, List.forall_mem_singleton.mpr rfl⟩
    · rw [run_bind hexpect, run_bind hlabel]
      rfl
    · have hsame : c.rest = c'.rest := hpasses.rest
      rwa [← hsame]
    · rw [emitted_bind hexpect, emitted_bind hlabel, htold, hemitted]
      exact congrArg _ (List.append_nil _)

/-- The units of a file, and the span around them. -/
theorem sourceText_run {units : List DesignUnit} {s t : Session}
    (h : ((unitsWithin c.rest.length).task c).run s = ((units, c'), t)) :
    ∃ span d, (sourceText.task c).run s = ((⟨units, span⟩, d), t) ∧
      (sourceText.task c).emitted s = ((unitsWithin c.rest.length).task c).emitted s := by
  obtain ⟨span, d, hspan⟩ := Silent.spanSince c.currentSpan c.consumed c' t
  refine ⟨span, d, ?_, ?_⟩
  · rw [sourceText, run_bind Reads.currentSpan.run, run_bind Reads.look.run,
      run_bind Reads.remaining.run, run_bind h, run_bind hspan.run]
    rfl
  · rw [sourceText, emitted_bind Reads.currentSpan.run, emitted_bind Reads.look.run,
      emitted_bind Reads.remaining.run, emitted_bind h, emitted_bind hspan.run, hspan.quiet]
    exact List.append_nil _

end Parts

end Parser

end Netlist
