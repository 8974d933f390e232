import Netlist.Proofs.Parser.Accepts.Instantiation
import Netlist.Proofs.Parser.Balance
import Netlist.Proofs.Parser.Ensures.Instantiation
import Netlist.Proofs.Parser.Joining
import Netlist.Proofs.Parser.Sentences

/-!
Statements in the body of a unit. A statement is read up to its semicolon with no look at what
stands behind it, so it is read alike alone and among others; and the search for ports takes it for
an instantiation. A body of statements is then read to the items of these statements, in order.
-/
namespace Netlist.Parser

open List (Forall₂)
open Syntax

variable {α β : Type} {c c' : Cursor} {s s' t : Session} {ts us rest : List Token}

/-- What mirrored parsers give at corresponding cursors corresponds, if the names do that are there
in the end: parsers look up none of them. -/
theorem Mirror.values {F : Frame} {Q : α → β → Prop} {x : ParserM α} {y : ParserM β}
    (h : Mirror F Q x y) (hbroken : F.broken) (hc : F.Cursors c c') {a : α} {b : β}
    {d d' : Cursor} {s s' t t' : Session} (hrun : (x.task c).run s = ((a, d), t))
    (hrun' : (y.task c').run s' = ((b, d'), t'))
    (hnames : ∀ text i j, t.names.resolve? i = some text → t'.names.resolve? j = some text →
      F.name text i j) : Q a b := by
  have hserves : Serves F ⟨F.name, fun _ _ => False, fun _ _ => True, F.broken⟩ :=
    ⟨fun _ _ _ hname => hname, fun hbroken => hbroken, fun _ _ _ _ => trivial⟩
  have hholds : Pairing.Holds ⟨F.name, fun _ _ => False, fun _ _ => True, F.broken⟩
      s ((x.task c).run s).2 s' ((y.task c').run s').2 := by
    rw [hrun, hrun']
    exact ⟨hnames, nofun, fun _ => hbroken⟩
  have hboth := (h.paired hserves hc).run hholds
  rw [hrun, hrun'] at hboth
  exact hboth.1.1

/-- The same cursor with nothing ahead but `ts`. -/
def Cursor.cut (c : Cursor) (ts : List Token) : Cursor := { c with rest := ts }

theorem advance_cut {u : Token} (hrest : c.rest = u :: rest) (heof : u.kind ≠ .eof)
    (us : List Token) : (c.cut (u :: us)).advance = c.advance.cut us := by
  simp only [Cursor.cut, Cursor.advance, hrest, if_neg heof]

section Front

/-- What stands between the module name of a statement and its semicolon. -/
def statementFront : ParserM (Option ParamClause × List Instance) := do
  let params ← whenAt .hash paramClause
  let first ← hierarchicalInstance
  let more ← moreItems hierarchicalInstance
  return (params, first :: more)

theorem blind_statementFront {K : Fork} : Blind K ts statementFront statementFront := by
  refine (blind_whenAt fun _ => blind_paramClause).bind fun params _ _ => ?_
  refine blind_hierarchicalInstance.bind fun first _ _ => ?_
  exact (blind_moreItems fun _ _ => blind_hierarchicalInstance).bind fun more _ _ => .pure _

theorem mirror_statementFront {F : Frame} : Mirror F (fun p p' =>
    Option.Rel (ParamClause.Alike F) p.1 p'.1 ∧ Forall₂ (Instance.Alike F) p.2 p'.2 ∧ p.2 ≠ [])
    statementFront statementFront := by
  refine Mirror.bind (mirror_whenAt .hash mirror_paramClause) fun params params' hparams => ?_
  refine Mirror.bind mirror_hierarchicalInstance fun first first' hfirst => ?_
  refine Mirror.bind (mirror_moreItems mirror_hierarchicalInstance) fun more more' hmore => ?_
  exact .pure ⟨hparams, .cons hfirst hmore, List.cons_ne_nil _ _⟩

theorem Reads.of_expectIdentifier {name : Identifier}
    (h : Reads expectIdentifier c s ts name c' t) :
    ∃ u, ts = [u] ∧ u.kind ≠ .eof ∧ name = ⟨(s.intern u.text).1, u.span c.file⟩ ∧
      c' = c.advance ∧ t = (s.intern u.text).2 := by
  have hname := isIdentifier_of_quiet h.quiet
  cases hrest : c.rest with
  | nil =>
    rw [current_of_rest hrest] at hname
    cases hname
  | cons u r =>
    rw [current_of_rest hrest] at hname
    have heof : u.kind ≠ .eof := by
      intro heof
      rw [headKind, heof] at hname
      cases hname
    have htext : c.currentText = u.text := by rw [Cursor.currentText, hrest]
    have hspan : c.currentSpan = u.span c.file := currentSpan_of_rest hrest rfl
    have hrun := h.run
    rw [expectIdentifier_run (by rwa [current_of_rest hrest]), htext, hspan] at hrun
    cases hrun
    have hall := h.rest
    rw [rest_advance hrest heof, hrest] at hall
    have hts : ts = [u] := (List.append_cancel_right hall).symm
    exact ⟨u, hts, heof, rfl, rfl, rfl⟩

theorem Reads.of_endOfStatement {v : Unit} (h : Reads endOfStatement c s ts v c' t) :
    ∃ semicolon, ts = [semicolon] ∧ semicolon.kind = .semicolon ∧ t = s := by
  obtain ⟨semicolon, rfl, hkind⟩ :=
    ensures_endOfStatement c s ts v c' t rfl rfl h (.refl _)
  obtain ⟨d, -, heat⟩ := Reads.eat (s := s) h.rest hkind (by decide)
  obtain ⟨vs, -, hpure⟩ := h.next heat
  obtain ⟨-, -, -, rfl⟩ := hpure.of_pure
  exact ⟨semicolon, rfl, hkind, rfl⟩

/-- The parts of a statement that is read without a report. What stands behind it has no part in
this. -/
theorem Reads.of_instantiation {stmt : Instantiation} (h : Reads instantiation c s ts stmt c' t) :
    ∃ u us d, ts = u :: us ∧ u.kind ≠ .eof ∧
      stmt.module = ⟨(s.intern u.text).1, u.span c.file⟩ ∧
      t.names.resolve? (s.intern u.text).1 = some u.text ∧
      (statementFront.task (c.advance.cut us)).run (s.intern u.text).2 =
        (((stmt.params, stmt.instances), d), t) := by
  obtain ⟨_, rfl, h⟩ := h.next Reads.currentSpan
  obtain ⟨module, c₁, s₁, _, _, rfl, hname, h⟩ := h.of_bind
  obtain ⟨params, c₂, s₂, ps, _, rfl, hparams, h⟩ := h.of_bind
  obtain ⟨first, c₃, s₃, is, _, rfl, hfirst, h⟩ := h.of_bind
  obtain ⟨more, c₄, s₄, js, _, rfl, hmore, h⟩ := h.of_bind
  obtain ⟨_, c₅, s₅, _, _, rfl, hend, h⟩ := h.of_bind
  obtain ⟨span, c₆, hspan⟩ := Silent.spanFrom c.currentSpan c₅ s₅
  obtain ⟨_, rfl, hpure⟩ := h.next hspan
  obtain ⟨rfl, rfl, rfl, rfl⟩ := hpure.of_pure
  obtain ⟨u, rfl, hu, rfl, rfl, rfl⟩ := hname.of_expectIdentifier
  obtain ⟨semicolon, rfl, -, rfl⟩ := hend.of_endOfStatement
  have hfront : Reads statementFront c.advance (s.intern u.text).2 (ps ++ (is ++ (js ++ [])))
      (params, first :: more) c₄ _ := hparams.bind (hfirst.bind (hmore.bind .pure))
  have hentered := hfront.names_extends.resolve? (Names.resolve?_intern s.names u.text)
  refine ⟨u, _, c₄.cut [semicolon], rfl, hu, rfl, hentered, ?_⟩
  have hrest : c.advance.rest = (ps ++ (is ++ (js ++ [semicolon]))) ++ c₅.rest := by
    rw [hfront.rest, hend.rest]
    simp
  have hturned := blind_statementFront (K := ⟨c₅.rest, []⟩) c.advance hrest
    (s.intern u.text).2 _ _ _ [semicolon] hfront.run hend.rest (List.cons_ne_nil _ _)
  simpa [Fork.turn, Cursor.cut] using hturned

/-- A statement runs from its first token to its last. -/
theorem span_instantiation {F : Frame} {before before' ts ts' rest rest' : List Token}
    {stmt stmt' : Instantiation} {d d' : Cursor} {s s' t t' : Session}
    (h : Reads instantiation (.between F.file before (ts ++ rest)) s ts stmt d t)
    (h' : Reads instantiation (.between F.file' before' (ts' ++ rest')) s' ts' stmt' d' t')
    (htokens : Forall₂ F.Tokens ts ts') : F.span stmt.span stmt'.span := by
  have hclosed {file : Nat} {before ts rest : List Token} {u l : Token} {stmt : Instantiation}
      {d : Cursor} {s t : Session}
      (h : Reads instantiation (.between file before (u :: ts ++ rest)) s (u :: ts) stmt d t)
      (hlast : (u :: ts).getLast? = some l) : stmt.span = (u.span file).cover (l.span file) := by
    have hprev : d.prev = some l := by rw [h.passes.prev, hlast, Option.some_or]
    have hconsumed : d.consumed ≠ 0 := by
      rw [h.passes.consumed, List.length_cons]
      omega
    exact closesHere_instantiation _ s stmt d t l h.run hprev hconsumed
  have hlast := Frame.Cursors.getLast?_tokens htokens
  obtain ⟨u, us, -, rfl, -⟩ := h.of_instantiation
  obtain ⟨u', us', -, rfl, -⟩ := h'.of_instantiation
  cases htokens with
  | cons hfirst hlater =>
    generalize hl : (u :: us).getLast? = l, hl' : (u' :: us').getLast? = l' at hlast
    cases hlast with
    | none => simp at hl
    | some hlast =>
      rw [hclosed h hl, hclosed h' hl']
      exact F.span_cover hfirst.span hlast.span

/-- Statements that are read from the same tokens at corresponding places are alike, wherever they
stand. -/
theorem alike_instantiation {F : Frame} (hbroken : F.broken) (herrors : F.errors = 0)
    {before before' ts ts' rest rest' : List Token} {stmt stmt' : Instantiation} {d d' : Cursor}
    {s s' t t' : Session}
    (h : Reads instantiation (.between F.file before (ts ++ rest)) s ts stmt d t)
    (h' : Reads instantiation (.between F.file' before' (ts' ++ rest')) s' ts' stmt' d' t')
    (htokens : Forall₂ F.Tokens ts ts') (hahead : before'.length = before.length + F.ahead)
    (hnames : ∀ text i j, t.names.resolve? i = some text → t'.names.resolve? j = some text →
      F.name text i j) : stmt.Alike F stmt' := by
  have hspan := span_instantiation h h' htokens
  obtain ⟨u, us, e, rfl, heof, hmodule, hentered, hfront⟩ := h.of_instantiation
  obtain ⟨u', us', e', rfl, heof', hmodule', hentered', hfront'⟩ := h'.of_instantiation
  cases htokens with
  | cons hfirst hlater =>
    have hcursors : F.Ahead ((Cursor.between F.file before (u :: us ++ rest)).cut (u :: us))
        ((Cursor.between F.file' before' (u' :: us' ++ rest')).cut (u' :: us')) := {
      file := rfl
      file' := rfl
      rest := .cons hfirst hlater
      consumed := hahead
      errors := herrors.symm
      errors' := herrors.symm
      misuse := rfl
      misuse' := rfl }
    obtain ⟨-, hcursors⟩ := hcursors.advance heof
    rw [advance_cut rfl heof, advance_cut rfl heof'] at hcursors
    obtain ⟨hparams, hinstances, hne⟩ :=
      mirror_statementFront.values hbroken hcursors hfront hfront' hnames
    refine ⟨?_, hparams, hinstances, hne, hspan⟩
    rw [hmodule, hmodule']
    refine ⟨⟨u.text, hnames _ _ _ hentered ?_, .inl hbroken⟩, hfirst.span⟩
    rw [hfirst.text]
    exact hentered'

end Front

/-- The kinds and texts of tokens tell whether they are those of a statement. -/
theorem exists_sentence {W : Writing} {stmt : Instantiation} {ts ts' : List Token}
    (h : stmt.Sentence W ts)
    (hsame : Forall₂ (fun t t' : Token => t.kind = t'.kind ∧ t.text = t'.text) ts ts') :
    ∃ W' stmt', Instantiation.Sentence W' stmt' ts' := by
  have haccepts : Accepts 0 instantiation ts [] _ := accepts_instantiation h
  obtain ⟨_, d, _, hreads, -⟩ := haccepts (.between 0 [] ts) {} rfl (List.append_nil ts).symm
  have hcursors : (Frame.ofFile 0).Cursors (.between 0 [] ts) (.between 0 [] ts') := {
    file := rfl
    file' := rfl
    rest := hsame.imp fun _ _ h => ⟨h.1, h.2, ⟨rfl, rfl⟩, trivial, fun _ => trivial⟩
    prev := .none
    consumed := rfl
    errors := rfl
    faulty := fun _ => trivial
    started := fun _ => rfl
    abreast := fun _ => rfl
    origin := fun _ _ => ⟨rfl, rfl⟩
    misuse := rfl
    misuse' := rfl }
  rcases hrun : (instantiation.task (.between 0 [] ts')).run {} with ⟨⟨stmt', d'⟩, t'⟩
  obtain ⟨⟨-, hafter⟩, hdiags, -⟩ :=
    (mirror_instantiation.paired (serves_ofFile 0) hcursors).run (holds_free {} _ {} _)
  rw [hreads.quiet, List.forall₂_nil_left_iff] at hdiags
  have hleft : d'.rest = [] := by
    have hrest := hafter.rest
    rw [hreads.run, hrun] at hrest
    have hnone : d.rest = [] := List.self_eq_append_right.mp hreads.rest
    rw [hnone, List.forall₂_nil_left_iff] at hrest
    exact hrest
  have hkinds : ts.map Token.kind = ts'.map Token.kind := by
    rw [← List.forall₂_eq_eq_eq, List.forall₂_map_left_iff, List.forall₂_map_right_iff]
    exact hsame.imp fun _ _ h => h.1
  have hclean : ∀ t ∈ ts', t.kind ≠ .error := by
    intro t ht herror
    have hmem : Kind.error ∈ ts.map Token.kind := by
      rw [hkinds, ← herror]
      exact List.mem_map_of_mem ht
    obtain ⟨u, hu, herror⟩ := List.mem_map.mp hmem
    exact hreads.clean u hu herror
  have hreads' : Reads instantiation (.between 0 [] ts') {} ts' stmt' d' t' :=
    ⟨hrun, hdiags, by rw [hleft, List.append_nil]; rfl, hclean⟩
  exact ⟨_, stmt', ensures_instantiation _ _ _ _ _ _ rfl rfl hreads' (.refl _)⟩

section Bodies

variable {file : Nat} {x : ParserM α}

/-- With `ts` and then `rest` ahead, `x` reads `ts` at any place of a stream, as long as nothing has
been reported, and what it gives has the property `Q` for the names entered by then, and for those
entered later. -/
def Takes (file : Nat) (x : ParserM α) (ts rest : List Token) (Q : Names → α → Prop) : Prop :=
  ∀ before s, ∃ a s', Reads x (.between file before (ts ++ rest)) s ts a
    (.between file (before ++ ts) rest) s' ∧ ∀ N, s'.names.Extends N → Q N a

theorem Accepts.takes {Q : α → α → Prop} {P : Names → α → Prop} (h : Accepts file x ts rest P)
    (hx : Mirror (Frame.ofFile file) Q x x) : Takes file x ts rest P := by
  intro before s
  obtain ⟨a, c', s', hreads, ha⟩ := h (.between file before (ts ++ rest)) s rfl rfl
  obtain ⟨taken, rest', htaken, rfl⟩ := between_of_run hx hreads.run hreads.quiet
  obtain rfl : rest = rest' := List.append_cancel_left hreads.rest
  obtain rfl : ts = taken := List.append_cancel_right htaken
  exact ⟨a, s', hreads, ha⟩

theorem Takes.bind {P : Names → α → Prop} {Q : Names → β → Prop} {f : α → ParserM β}
    (hx : Takes file x ts (us ++ rest) P)
    (hf : ∀ a, Takes file (f a) us rest fun N b => P N a → Q N b) :
    Takes file (x >>= f) (ts ++ us) rest Q := by
  intro before s
  obtain ⟨a, s₁, hfirst, ha⟩ := hx before s
  obtain ⟨b, s₂, hlater, hb⟩ := hf a (before ++ ts) s₁
  rw [List.append_assoc, ← List.append_assoc before]
  exact ⟨b, s₂, hfirst.bind hlater, fun N hN => hb N hN (ha N (hlater.names_extends.trans hN))⟩

theorem Takes.map {Q : Names → β → Prop} {g : α → β}
    (hx : Takes file x ts rest fun N a => Q N (g a)) :
    Takes file (do return g (← x)) ts rest Q := by
  intro before s
  obtain ⟨a, s', hreads, ha⟩ := hx before s
  exact ⟨g a, s', hreads.map, ha⟩

theorem Takes.remaining {Q : Names → β → Prop} {f : Nat → ParserM β}
    (hf : Takes file (f (ts ++ rest).length) ts rest Q) :
    Takes file (remaining >>= f) ts rest Q := by
  intro before s
  obtain ⟨b, s', hreads, hb⟩ := hf before s
  exact ⟨b, s', Reads.remaining.step hreads, hb⟩

/-- A statement that is read without a report is an item of its own. -/
theorem Takes.instantiationItem {Q : Names → Instantiation → Prop}
    (h : Takes file instantiation ts rest Q) :
    Takes file instantiationItem ts rest fun N item => ∃ stmt, item = .instantiation stmt ∧
      Q N stmt := by
  intro before s
  obtain ⟨stmt, s', hreads, hQ⟩ := h before s
  refine ⟨.instantiation stmt, s', ?_, fun N hN => ⟨stmt, rfl, hQ N hN⟩⟩
  refine Reads.currentSpan.step (Reads.look.step ?_)
  refine (hreads.bind (Reads.look.step ?_)).cast (List.append_nil ts)
  have hnone : ¬ (Cursor.between file (before ++ ts) rest).errors >
      (Cursor.between file before (ts ++ rest)).errors := Nat.lt_irrefl 0
  rw [if_neg hnone]
  exact .pure

theorem Takes.item? {Q : Names → Instantiation → Prop} {u : Token}
    (h : Takes file instantiation (u :: us) rest Q) (hu : u.kind.isIdentifier = true)
    (hports : continuesInstantiation (us ++ rest) = true) (before : List Token) (s : Session) :
    ∃ stmt s', Reads (item? (.between file before (u :: us ++ rest)))
        (.between file before (u :: us ++ rest)) s (u :: us) (some (.instantiation stmt))
        (.between file (before ++ u :: us) rest) s' ∧ ∀ N, s'.names.Extends N → Q N stmt := by
  obtain ⟨_, s', hreads, hQ⟩ := h.instantiationItem before s
  obtain ⟨stmt, rfl, -⟩ := hQ s'.names (.refl _)
  refine ⟨stmt, s', ?_, fun N hN => ?_⟩
  · have hcurrent : (Cursor.between file before (u :: us ++ rest)).current = u.kind :=
      current_of_rest rfl
    have hother : (Cursor.between file before (u :: us ++ rest)).current ≠ .semicolon := by
      intro hsemicolon
      rw [← hcurrent, hsemicolon] at hu
      cases hu
    refine (Reads.eat_other hother).step ?_
    have hahead : ((Cursor.between file before (u :: us ++ rest)).current.isIdentifier &&
        continuesInstantiation (Cursor.between file before (u :: us ++ rest)).rest.tail) =
          true := by
      rw [hcurrent, hu, Bool.true_and]
      exact hports
    rw [if_neg Bool.false_ne_true, if_pos hahead]
    exact hreads.map
  · obtain ⟨_, heq, hstmt⟩ := hQ N hN
    cases heq
    exact hstmt

/-- A body of statements is read to the items of these, in order. -/
theorem takes_itemsWithin {γ : Type} {R : γ → List Token → Prop}
    {S : Names → γ → Instantiation → Prop} {kind : UnitKind} {gs : List γ} (h : Strung R gs us)
    (hrest : headKind rest = .unitEnd kind)
    (hsentence : ∀ g ts, R g ts → ∃ W stmt, Instantiation.Sentence W stmt ts)
    (hitem : ∀ g ts rest, R g ts → Takes file instantiation ts rest fun N => S N g) {bound : Nat}
    (hbound : us.length ≤ bound) :
    Takes file (itemsWithin kind bound) us rest fun N items =>
      Forall₂ (fun g item => ∃ stmt, item = .instantiation stmt ∧ S N g stmt) gs items := by
  induction h generalizing bound with
  | nil =>
    intro before s
    refine ⟨[], s, ?_, fun _ _ => .nil⟩
    rw [List.append_nil]
    cases bound with
    | zero => exact .pure
    | succ bound =>
      refine Reads.look.step ?_
      have hcurrent : (Cursor.between file before ([] ++ rest)).current = .unitEnd kind :=
        (current_of_rest rfl).trans hrest
      rw [hcurrent, if_pos (by simp)]
      exact .pure
  | @cons g gs ts us hg _ ih =>
    intro before s
    obtain ⟨W, stmt, hstmt⟩ := hsentence g ts hg
    obtain ⟨t, ts', rfl, ht, hports⟩ := continuesInstantiation_sentence hstmt (us ++ rest)
    rw [List.length_append, List.length_cons] at hbound
    obtain ⟨bound, rfl⟩ : ∃ n, bound = n + 1 := ⟨bound - 1, by omega⟩
    obtain ⟨stmt', s₁, hfirst, hQ⟩ := (hitem g _ (us ++ rest) hg).item? ht hports before s
    have hmore : us.length ≤ bound := by omega
    obtain ⟨items, s₂, hlater, hitems⟩ := ih hmore (before ++ t :: ts') s₁
    refine ⟨.instantiation stmt' :: items, s₂, ?_, fun N hN => .cons ⟨stmt', rfl, hQ N ?_⟩ ?_⟩
    · have hcurrent : (Cursor.between file before (t :: ts' ++ (us ++ rest))).current = t.kind :=
        current_of_rest rfl
      have hgoes : ¬ (t.kind = .unitEnd kind || t.kind = .eof || t.kind.isUnitStart) = true := by
        generalize t.kind = k at ht
        cases k <;> cases ht <;> simp [Kind.isUnitStart]
      rw [List.append_assoc, ← List.append_assoc before]
      refine (Reads.look.step ?_).cast (congrArg (t :: ts' ++ ·) (List.append_nil us))
      rw [hcurrent, if_neg hgoes]
      exact hfirst.bind (hlater.bind .pure)
    · exact hlater.names_extends.trans hN
    · exact hitems N hN

end Bodies

section Units

variable {file : Nat} {kind : UnitKind} {opener name semicolon closer : Token}

theorem accepts_recoverToSemicolon (hkind : semicolon.kind = .semicolon) :
    Accepts file recoverToSemicolon [semicolon] rest fun _ _ => True := by
  intro c s _ hrest
  have hstay : c.skipUntil (fun k => k = .semicolon || k.isUnitBoundary) = c := by
    obtain ⟨file', prev, rest', consumed, errors, misuse⟩ := c
    cases hrest
    simp [Cursor.skipUntil, hkind]
  have hskip : Reads (skipUntil fun k => k = .semicolon || k.isUnitBoundary) c s [] () c s :=
    ⟨congrArg (fun d => (((), d), s)) hstay, rfl, rfl, List.forall_mem_nil _⟩
  obtain ⟨d, hd, heat⟩ := Reads.eat (s := s) hrest hkind (by decide)
  exact ⟨(), d, s, hskip.step (heat.bind .pure), fun _ _ => trivial⟩

/-- What follows the opening word of a unit without ports, parameters and label. -/
theorem takes_unitBody {Q : Names → List Item → Prop} (hname : name.kind.isIdentifier = true)
    (hsemicolon : semicolon.kind = .semicolon) (hcloser : closer.kind = .unitEnd kind)
    (hrest : headKind rest ≠ .colon)
    (hitems : ∀ bound, us.length ≤ bound →
      Takes file (itemsWithin kind bound) us (closer :: rest) Q) :
    Takes file (unitBody kind) ([name] ++ ([semicolon] ++ (us ++ ([closer] ++ [])))) rest
      fun N body => N.find? name.text = some body.1.name ∧ Q N body.2.1 ∧ body.2.2 = none := by
  have hnamed : Takes file expectIdentifier [name] ([semicolon] ++ (us ++ ([closer] ++ [])) ++ rest)
      fun N i => N.find? name.text = some i.name :=
    (Accepts.nameOr hname).takes mirror_expectIdentifier
  refine hnamed.bind fun i => ?_
  refine ((accepts_recoverToSemicolon hsemicolon).takes mirror_recoverToSemicolon).bind fun _ => ?_
  refine .remaining ((hitems _ (by simp)).bind fun items => ?_)
  have hclosed : Accepts file (expect (.unitEnd kind)) [closer] rest fun _ _ => True :=
    .eat ⟨nofun, nofun⟩ hcloser (.pure fun _ => trivial)
  refine (hclosed.takes (mirror_expect nofun)).bind fun _ => ?_
  have hlabel : Accepts file endLabel? [] rest fun _ label => label = none :=
    .eatOther hrest (.pure fun _ => rfl)
  refine .map ?_
  intro before s
  obtain ⟨label, s', hreads, hnone⟩ := hlabel.takes mirror_endLabel? before s
  exact ⟨label, s', hreads, fun N hN _ hQ _ hi => ⟨hi, hQ, hnone N hN⟩⟩

theorem reads_take {kind : Kind} {t : Token} (hkind : t.kind = kind) (hsolid : kind.Solid)
    (before rest : List Token) (s : Session) :
    Reads (take kind) (.between file before (t :: rest)) s [t] ()
      (.between file (before ++ [t]) rest) s := by
  have hcurrent : (Cursor.between file before (t :: rest)).current = kind :=
    (current_of_rest rfl).trans hkind
  have heof : t.kind ≠ .eof := by
    rw [hkind]
    exact hsolid.1
  have hadvance : (Cursor.between file before (t :: rest)).advance =
      .between file (before ++ [t]) rest := by
    simp [Cursor.advance, Cursor.between, heof]
  obtain ⟨hrun, hquiet⟩ := take_run hcurrent s
  rw [hadvance] at hrun
  exact ⟨hrun, hquiet, rfl, List.forall_mem_singleton.mpr (by rw [hkind]; exact hsolid.2)⟩

/-- A unit, from its opening word on. -/
theorem reads_designUnit {Q : Names → Identifier × List Item × Option Identifier → Prop}
    (hopener : opener.kind = .unitStart kind) (hbody : Takes file (unitBody kind) us rest Q)
    (before : List Token) (s : Session) :
    ∃ unit c' s', Reads (designUnit kind) (.between file before (opener :: (us ++ rest))) s
        (opener :: us) unit c' s' ∧
      unit.kind = kind ∧ ∀ N, s'.names.Extends N → Q N (unit.name, unit.items, unit.endLabel) := by
  have htake : Reads (take (.unitStart kind)) (.between file before (opener :: (us ++ rest))) s
      [opener] () _ s := reads_take hopener ⟨nofun, nofun⟩ before _ s
  obtain ⟨⟨name, items, label⟩, s', hbody, hvalues⟩ := hbody (before ++ [opener]) s
  obtain ⟨span, c', hspan⟩ := Silent.spanFrom (opener.span file)
    (.between file (before ++ [opener] ++ us) rest) s'
  refine ⟨⟨kind, name, items, label, span⟩, c', s', ?_, rfl, hvalues⟩
  refine (Reads.currentSpan.step (htake.bind (hbody.bind hspan.map))).cast ?_
  rw [List.append_nil]
  rfl

/-- A file with one unit. -/
theorem reads_sourceText {unit : DesignUnit} (hopener : opener.kind = .unitStart kind)
    (hrest : headKind rest = .eof)
    (hunit : Reads (designUnit kind) (.between file [] (opener :: (us ++ rest))) s (opener :: us)
      unit c' s') :
    ∃ span d, Reads sourceText (.between file [] (opener :: (us ++ rest))) s (opener :: us)
      ⟨[unit], span⟩ d s' := by
  have hleft : c'.rest = rest :=
    ((List.append_right_inj (opener :: us)).mp hunit.rest).symm
  have hnone (bound : Nat) : Reads (unitsWithin bound) c' s' [] [] c' s' := by
    cases bound with
    | zero => exact .pure
    | succ bound =>
      refine Reads.current.step ?_
      rw [current_of_rest hleft, hrest]
      exact .pure
  have hunits (bound : Nat) : Reads (unitsWithin (bound + 1))
      (.between file [] (opener :: (us ++ rest))) s (opener :: us) [unit] c' s' := by
    refine Reads.current.step ?_
    have hcurrent : (Cursor.between file [] (opener :: (us ++ rest))).current = .unitStart kind :=
      (current_of_rest rfl).trans hopener
    rw [hcurrent]
    exact (hunit.bind (hnone bound).map).cast (List.append_nil _)
  obtain ⟨span, d, hspan⟩ := Silent.spanSince (opener.span file) 0 c' s'
  refine ⟨span, d, ?_⟩
  refine Reads.currentSpan.step (Reads.look.step (Reads.remaining.step ?_))
  exact ((hunits _).bind hspan.map).cast (List.append_nil _)

end Units

end Netlist.Parser
