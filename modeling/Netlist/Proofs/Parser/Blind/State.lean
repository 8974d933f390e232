import Netlist.Proofs.Parser.Blind

/-!
The parsers of single tokens, names and lists do not see behind the tokens they need.
-/
namespace Netlist.Parser

open Syntax

variable {α : Type} {K : Fork} {ts : List Token}

/-- The end of a text is never consumed. -/
theorem take_eof_run (c : Cursor) (s : Session) :
    ((take .eof).task c).run s = (((), c), s) := by
  by_cases heof : c.current = .eof
  · have hstays : c.advance = c := by
      unfold Cursor.advance
      cases hrest : c.rest with
      | nil => rfl
      | cons t ts =>
        have ht : t.kind = .eof := (current_of_rest hrest).symm.trans heof
        dsimp only
        rw [if_pos ht]
    rw [(take_run heof s).1, hstays]
  · rw [take, run_bind (Reads.eat_other heof).run]
    rfl

theorem blind_take {kind : Kind} : Blind K ts (take kind) (take kind) := by
  by_cases heof : kind = .eof
  · subst heof
    exact .steady fun c s => ⟨(), c.errors, c.misuse, s, fun _ => take_eof_run _ s⟩
  · exact Blind.eat heof (fun _ _ _ _ => .pure ()) fun _ => .pure ()

/-- Behind a token that is there fewer are ahead. -/
theorem blind_takeThen {kind : Kind} {f g : Unit → ParserM α} (hkind : headKind ts = kind)
    (heof : kind ≠ .eof) (hf : ∀ vs, vs.length < ts.length → Blind K vs (f ()) (g ())) :
    Blind K ts (take kind >>= f) (take kind >>= g) := by
  apply Blind.of_ne_nil
  intro hne
  have heats : Eats (ts ++ K.left) (take kind) :=
    .take ((headKind_append hne K.left).trans hkind) heof
  exact blind_take.bindEats heats fun _ vs _ hless => hf vs hless

theorem blind_currentSpan : Blind K ts currentSpan currentSpan :=
  .observe fun _ hrest hne => currentSpan_turn hrest hne

theorem blind_prevSpan : Blind K ts prevSpan prevSpan := by
  apply Blind.of_ne_nil
  intro hne
  apply Blind.look
  intro c hrest
  rw [currentSpan_turn hrest hne, prevSpan_turn hrest hne]
  exact .demand _ _

theorem blind_spanFrom (start : Span) : Blind K ts (spanFrom start) (spanFrom start) :=
  blind_prevSpan.bind fun _ _ _ => .demand _ _

theorem blind_spanSince (start : Span) (consumed : Nat) :
    Blind K ts (spanSince start consumed) (spanSince start consumed) := by
  apply Blind.look
  intro c _
  show Blind K ts (if c.consumed > consumed then _ else _) (if c.consumed > consumed then _ else _)
  split
  · exact blind_spanFrom start
  · exact .pure _

theorem blind_report (e : SyntaxError) : Blind K ts (report e) (report e) :=
  blind_currentSpan.bind fun _ _ _ => .reportAt e _

theorem blind_expect {kind : Kind} (heof : kind ≠ .eof) :
    Blind K ts (expect kind) (expect kind) := by
  apply Blind.eat heof
  · exact fun _ _ _ _ => .pure ()
  · exact fun _ => Blind.current (blind_report _)

theorem blind_expectThen {kind : Kind} {f g : Unit → ParserM α} (hkind : headKind ts = kind)
    (heof : kind ≠ .eof) (hf : ∀ vs, vs.length < ts.length → Blind K vs (f ()) (g ())) :
    Blind K ts (expect kind >>= f) (expect kind >>= g) := by
  apply Blind.of_ne_nil
  intro hne
  have heats : Eats (ts ++ K.left) (expect kind) :=
    .expect ((headKind_append hne K.left).trans hkind) heof
  exact (blind_expect heof).bindEats heats fun _ vs _ hless => hf vs hless

theorem blind_nameAt {c : Cursor} (hrest : c.rest = ts ++ K.left) :
    Blind K ts (nameAt c) (nameAt (K.turn ts c)) := by
  apply Blind.of_ne_nil
  intro hne
  unfold nameAt
  rw [currentText_turn hrest hne, current_turn hne, current_common hrest hne,
    currentSpan_turn hrest hne]
  exact (Blind.intern _).bind fun _ _ _ => blind_take.bind fun _ _ _ => .pure _

theorem blind_placeholder : Blind K ts placeholder placeholder :=
  (Blind.intern _).bind fun _ _ _ => blind_currentSpan.bind fun _ _ _ => .pure _

theorem blind_nameOr (missing : Kind → SyntaxError) :
    Blind K ts (nameOr missing) (nameOr missing) := by
  apply Blind.of_ne_nil
  intro hne
  apply Blind.look
  intro c hrest
  rw [current_turn hne, current_common hrest hne]
  split
  · exact blind_nameAt hrest
  · exact (blind_report _).bind fun _ _ _ => blind_placeholder

theorem blind_expectIdentifier : Blind K ts expectIdentifier expectIdentifier := blind_nameOr _

section Parts

variable {x y : ParserM α} {kind : Kind}

theorem blind_whenAt (h : headKind ts = kind → Blind K ts x y) :
    Blind K ts (whenAt kind x) (whenAt kind y) :=
  Blind.sees (fun hkind => (h hkind).map some) fun _ => .pure none

theorem blind_unlessAt (h : Blind K ts x y) : Blind K ts (unlessAt kind x) (unlessAt kind y) :=
  Blind.sees (fun _ => .pure none) fun _ => h.map some

theorem blind_after (heof : kind ≠ .eof) (h : ∀ vs, Blind K vs x y) :
    Blind K ts (after kind x) (after kind y) :=
  Blind.eat heof (fun _ vs _ _ => (h vs).map some) fun _ => .pure none

theorem blind_commaItems {b b' : Nat} (hb : ts.length ≤ b) (hb' : ts.length ≤ b')
    (h : ∀ vs, vs.length < ts.length → Blind K vs x y) :
    Blind K ts (commaItems x b) (commaItems y b') := by
  induction b generalizing ts b' with
  | zero => exact .of_length hb
  | succ b ih =>
    cases b' with
    | zero => exact .of_length hb'
    | succ b' =>
      refine Blind.eat (by decide) (fun t vs hts _ => ?_) fun _ => .pure []
      subst hts
      rw [List.length_cons] at hb hb'
      refine (h vs (Nat.lt_succ_self _)).bind fun first us hus => ?_
      have hless := hus.length_le
      refine (ih (by omega) (by omega) fun ws hws => h ws ?_).bind fun _ _ _ => .pure _
      rw [List.length_cons]
      omega

theorem blind_moreItems (h : ∀ vs, vs.length < ts.length → Blind K vs x y) :
    Blind K ts (moreItems x) (moreItems y) :=
  Blind.remaining fun _ _ hb hb' => blind_commaItems hb hb' h

theorem blind_itemsWhile {b b' : Nat} (hb : ts.length ≤ b) (hb' : ts.length ≤ b')
    (heats : ∀ r, headKind r = kind → Eats r x) (h : ∀ vs, Blind K vs x y) :
    Blind K ts (itemsWhile kind x b) (itemsWhile kind y b') := by
  induction b generalizing ts b' with
  | zero => exact .of_length hb
  | succ b ih =>
    cases b' with
    | zero => exact .of_length hb'
    | succ b' =>
      apply Blind.of_ne_nil
      intro hne
      apply Blind.sees
      · intro hkind
        have hfirst : Eats (ts ++ K.left) x := heats _ ((headKind_append hne K.left).trans hkind)
        refine (h ts).bindEats hfirst fun _ vs _ hless => ?_
        exact (ih (by omega) (by omega)).bind fun _ _ _ => .pure _
      · exact fun _ => .pure []

theorem blind_itemsAt (heats : ∀ r, headKind r = kind → Eats r x) (h : ∀ vs, Blind K vs x y) :
    Blind K ts (itemsAt kind x) (itemsAt kind y) :=
  Blind.remaining fun _ _ hb hb' => blind_itemsWhile hb hb' heats h

end Parts

theorem blind_endLabel? : Blind K ts endLabel? endLabel? :=
  blind_after nofun fun _ => blind_expectIdentifier

theorem blind_recoverToSemicolon : Blind K ts recoverToSemicolon recoverToSemicolon :=
  (Blind.skipUntil _).bind fun _ _ _ => Blind.eat nofun (fun _ _ _ _ => .pure ()) fun _ => .pure ()

end Netlist.Parser
