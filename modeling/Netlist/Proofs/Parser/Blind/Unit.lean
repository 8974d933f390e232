import Netlist.Parser.Unit
import Netlist.Proofs.Parser.Blind.Instantiation

/-!
The parsers of items do not see behind the tokens they need, but for one look ahead: what follows a
name decides whether it begins an instantiation or a declaration, and that search may go on to the
end of the text. So the two ways a stream goes on have to agree on that. Every item consumes a
token, which makes the bound on the items of a body one that is never reached.
-/
namespace Netlist.Parser

open Syntax

variable {K : Fork} {ts : List Token} {c : Cursor}

section Progress

variable {α : Type} {d : Cursor} {s : Session}

theorem Cursor.Passes.consumed_lt_iff {c' : Cursor} (h : c.Passes ts c') :
    c.consumed < c'.consumed ↔ c'.rest.length < c.rest.length := by
  rw [h.consumed, h.rest, List.length_append]
  omega

/-- A parser that consumes nothing leaves the same tokens ahead. -/
theorem Cursor.Passes.rest_of_consumed {c' : Cursor} (h : c.Passes ts c')
    (hsame : c'.consumed = c.consumed) : c'.rest = c.rest := by
  have hnil : ts = [] := by
    rw [h.consumed] at hsame
    exact List.length_eq_zero_iff.mp (by omega)
  rw [h.rest, hnil, List.nil_append]

theorem consumed_le_run (x : ParserM α) (c : Cursor) (s : Session) :
    c.consumed ≤ ((x.task c).run s).1.2.consumed := by
  obtain ⟨ts, hpasses⟩ := Cursor.Passes.exists_run x c s
  rw [hpasses.consumed]
  exact Nat.le_add_right _ _

theorem consumed_lt_takeSome (heof : c.current ≠ .eof) (hle : c.consumed ≤ d.consumed)
    (hsame : d.consumed = c.consumed → d.rest = c.rest) :
    c.consumed < (((takeSome c).task d).run s).1.2.consumed := by
  rw [takeSome, run_bind (Reads.look (c := d) (s := s)).run]
  by_cases hstays : d.consumed = c.consumed
  · have hcurrent : d.current = c.current :=
      (current_of_rest (hsame hstays)).trans (current_of_rest rfl).symm
    obtain ⟨t, r, hrest⟩ : ∃ t r, d.rest = t :: r := by
      cases hrest : d.rest with
      | nil => exact absurd (hcurrent.symm.trans (current_of_rest hrest)) heof
      | cons t r => exact ⟨t, r, rfl⟩
    have ht : t.kind ≠ .eof := by
      have hhead : d.current = t.kind := current_of_rest hrest
      rwa [← hhead, hcurrent]
    rw [if_pos hstays, (take_run hcurrent s).1]
    simp only [Cursor.advance, hrest, if_neg ht]
    omega
  · rw [if_neg hstays]
    show c.consumed < d.consumed
    omega

theorem consumed_lt_brokenItem (heof : c.current ≠ .eof) (hle : c.consumed ≤ d.consumed)
    (hsame : d.consumed = c.consumed → d.rest = c.rest) :
    c.consumed < (((brokenItem c).task d).run s).1.2.consumed := by
  rw [brokenItem, run_bind (report_run _ d s)]
  generalize s.emit _ = s'
  rcases hrecover : (recoverToSemicolon.task { d with errors := d.errors + 1 }).run s' with
    ⟨⟨_, e⟩, t⟩
  obtain ⟨us, hpasses⟩ :=
    Cursor.Passes.exists_run recoverToSemicolon { d with errors := d.errors + 1 } s'
  rw [hrecover] at hpasses
  have hmore : d.consumed ≤ e.consumed := by
    rw [hpasses.consumed]
    exact Nat.le_add_right _ _
  have hagain (h : e.consumed = c.consumed) : e.rest = c.rest :=
    (hpasses.rest_of_consumed (by dsimp only; omega)).trans (hsame (by omega))
  rcases htake : ((takeSome c).task e).run t with ⟨⟨_, e'⟩, t'⟩
  have hless : c.consumed < e'.consumed := by
    have hless := consumed_lt_takeSome heof (hle.trans hmore) hagain (s := t)
    rwa [htake] at hless
  rw [run_bind hrecover, run_bind htake]
  exact Nat.lt_of_lt_of_le hless (consumed_le_run _ e' t')

theorem consumed_lt_otherItem (heof : c.current ≠ .eof) :
    c.consumed < (((otherItem c).task c).run s).1.2.consumed := by
  unfold otherItem
  split
  · rcases hskip : ((skipItem c).task c).run s with ⟨⟨_, d⟩, t⟩
    obtain ⟨us, hpasses⟩ := Cursor.Passes.exists_run (skipItem c) c s
    rw [hskip] at hpasses
    rw [run_bind hskip, run_bind (Reads.look (c := d) (s := t)).run]
    split
    next hmore => exact Nat.lt_of_lt_of_le hmore (consumed_le_run _ d t)
    next =>
      have hle : c.consumed ≤ d.consumed := by
        rw [hpasses.consumed]
        exact Nat.le_add_right _ _
      exact consumed_lt_brokenItem heof hle hpasses.rest_of_consumed
  · exact consumed_lt_brokenItem heof (Nat.le_refl _) fun _ => rfl

theorem eats_instantiationItem {r : List Token} (h : (headKind r).isIdentifier = true) :
    Eats r instantiationItem := by
  have hstmt : Eats r instantiation :=
    .kept Silent.currentSpan.keeps fun _ => (Eats.nameOr h).bind
  exact .kept Silent.currentSpan.keeps fun _ => .kept keeps_look fun _ => hstmt.bind

/-- Every item consumes a token. -/
theorem consumed_lt_item? (heof : c.current ≠ .eof) :
    c.consumed < (((item? c).task c).run s).1.2.consumed := by
  obtain ⟨us, hpasses⟩ := Cursor.Passes.exists_run (item? c) c s
  by_cases hempty : c.current = .semicolon
  · have heats : Eats c.rest (item? c) :=
      (Eats.eat ((current_of_rest rfl).symm.trans hempty) (by decide)).bind
    exact hpasses.consumed_lt_iff.mpr (heats c s rfl)
  · rw [item?, run_bind (Reads.eat_other hempty).run]
    simp only [Bool.false_eq_true, if_false]
    split
    next hname =>
      rw [Bool.and_eq_true, current_of_rest rfl] at hname
      have heats : Eats c.rest (some <$> instantiationItem) := (eats_instantiationItem hname.1).bind
      obtain ⟨vs, hpasses'⟩ := Cursor.Passes.exists_run (some <$> instantiationItem) c s
      exact hpasses'.consumed_lt_iff.mpr (heats c s rfl)
    next =>
      rcases hother : ((otherItem c).task c).run s with ⟨⟨item, d⟩, t⟩
      have hless := consumed_lt_otherItem heof (s := s)
      have hmap : ((some <$> otherItem c).task c).run s = ((some item, d), t) := run_bind hother
      rw [hother] at hless
      rwa [hmap]

end Progress

/-- Both ways go on alike for an item that begins with the first of these tokens. -/
structure Fork.Agrees (K : Fork) (ts : List Token) : Prop where
  instantiation : continuesInstantiation (ts.tail ++ K.left) =
    continuesInstantiation (ts.tail ++ K.right)
  declaration : continuesDeclaration (headKind (ts.tail ++ K.left)) =
    continuesDeclaration (headKind (ts.tail ++ K.right))

theorem blind_passOver (prototype : Bool) {b b' : Nat} (hb : ts.length ≤ b) (hb' : ts.length ≤ b')
    (nest blocks : Nat) :
    Blind K ts (passOver prototype b nest blocks) (passOver prototype b' nest blocks) := by
  induction b generalizing ts b' nest blocks with
  | zero => exact .of_length hb
  | succ b ih =>
    cases b' with
    | zero => exact .of_length hb'
    | succ b' =>
      have hmore {kind : Kind} (hkind : headKind ts = kind) (heof : kind ≠ .eof)
          (nest blocks : Nat) :
          Blind K ts (do take kind; passOver prototype b nest blocks)
            (do take kind; passOver prototype b' nest blocks) :=
        blind_takeThen hkind heof fun vs hless => ih (by omega) (by omega) nest blocks
      have helse {us : List Token} (hless : us.length < ts.length) :
          Blind K us (do if ← sees (.word .elseWord) then passOver prototype b 0 0)
            (do if ← sees (.word .elseWord) then passOver prototype b' 0 0) :=
        Blind.sees (fun _ => ih (by omega) (by omega) 0 0) fun _ => .pure ()
      apply Blind.of_ne_nil
      intro hne
      apply Blind.look
      intro c hrest
      refine (Blind.demand .eof c.prevKind).bindKeeps (Silent.demand _ _).keeps fun before => ?_
      rw [current_turn hne, current_common hrest hne]
      split
      · exact .pure ()
      · exact .pure ()
      · exact .pure ()
      · next hkind => exact hmore rfl (by rw [hkind]; decide) _ _
      · next hkind => exact hmore rfl (by rw [hkind]; decide) _ _
      · next hkind => exact hmore rfl (by rw [hkind]; decide) _ _
      · next hkind => exact hmore rfl (by rw [hkind]; decide) _ _
      · next hkind => exact hmore rfl (by rw [hkind]; decide) _ _
      · next hkind => exact hmore rfl (by rw [hkind]; decide) _ _
      · next hkind => exact hmore rfl (by rw [hkind]; decide) _ _
      · next hkind => exact hmore rfl (by rw [hkind]; decide) _ _
      · next hkind =>
        refine blind_takeThen hkind (by decide) fun vs hless => ?_
        split
        · exact helse hless
        · exact ih (by omega) (by omega) nest blocks
      · next word hkind =>
        split
        · exact .pure ()
        · refine blind_takeThen hkind nofun fun vs hless => ?_
          split
          · refine blind_endLabel?.bind fun _ us hus => ?_
            have hshorter := hus.length_le
            exact helse (by omega)
          · exact ih (by omega) (by omega) nest (blocks - 1)
      · next word hkind =>
        refine blind_takeThen hkind nofun fun vs hless => ?_
        split
        · exact ih (by omega) (by omega) nest blocks
        · exact ih (by omega) (by omega) nest (blocks + 1)
      · next heof _ _ _ _ _ _ _ _ _ _ _ _ _ => exact hmore rfl heof nest blocks

theorem blind_skipItem (hrest : c.rest = ts ++ K.left) :
    Blind K ts (skipItem c) (skipItem (K.turn ts c)) := by
  apply Blind.of_ne_nil
  intro hne
  unfold skipItem
  rw [current_turn hne, current_common hrest hne]
  apply blind_passOver
  · rw [hrest, List.length_append]
    exact Nat.le_add_right _ _
  · show _ ≤ (ts ++ K.right).length
    rw [List.length_append]
    exact Nat.le_add_right _ _

theorem blind_takeSome (hrest : c.rest = ts ++ K.left) (hne : ts ≠ []) {us : List Token} :
    Blind K us (takeSome c) (takeSome (K.turn ts c)) := by
  apply Blind.look
  intro d _
  rw [current_turn hne, current_common hrest hne]
  show Blind K us (if d.consumed = c.consumed then _ else _)
    (if d.consumed = c.consumed then _ else _)
  split
  · exact blind_take
  · exact .pure ()

theorem blind_brokenItem (hrest : c.rest = ts ++ K.left) (hne : ts ≠ []) {us : List Token} :
    Blind K us (brokenItem c) (brokenItem (K.turn ts c)) := by
  unfold brokenItem
  rw [currentSpan_turn hrest hne]
  refine (blind_report _).bind fun _ _ _ => ?_
  refine blind_recoverToSemicolon.bind fun _ _ _ => ?_
  refine (blind_takeSome hrest hne).bind fun _ _ _ => ?_
  exact (blind_spanFrom _).bind fun _ _ _ => .pure _

theorem startsOtherItem_turn (hrest : c.rest = ts ++ K.left) (hne : ts ≠ [])
    (hagrees : K.Agrees ts) : (K.turn ts c).startsOtherItem = c.startsOtherItem := by
  have hnext (c : Cursor) : c.kindAt 1 = headKind c.rest.tail := by
    rw [Cursor.kindAt]
    cases c.rest with
    | nil => rfl
    | cons t r => cases r <;> rfl
  have htail : (K.turn ts c).rest.tail = ts.tail ++ K.right := List.tail_append_of_ne_nil hne
  unfold Cursor.startsOtherItem
  rw [current_turn hne, current_common hrest hne, currentText_turn hrest hne, hnext, hnext, htail,
    hrest, List.tail_append_of_ne_nil hne, hagrees.declaration]

theorem blind_otherItem (hrest : c.rest = ts ++ K.left) (hagrees : K.Agrees ts) :
    Blind K ts (otherItem c) (otherItem (K.turn ts c)) := by
  apply Blind.of_ne_nil
  intro hne
  unfold otherItem
  rw [startsOtherItem_turn hrest hne hagrees, currentSpan_turn hrest hne]
  split
  · refine (blind_skipItem hrest).bind fun _ us _ => ?_
    apply Blind.look
    intro d _
    show Blind K us (if d.consumed > c.consumed then _ else _)
      (if d.consumed > c.consumed then _ else _)
    split
    · exact (blind_spanFrom _).bind fun _ _ _ => .pure _
    · exact blind_brokenItem hrest hne
  · exact blind_brokenItem hrest hne

theorem blind_instantiationItem : Blind K ts instantiationItem instantiationItem := by
  refine blind_currentSpan.bind fun start us _ => ?_
  apply Blind.look
  intro c _
  refine blind_instantiation.bind fun stmt vs _ => ?_
  apply Blind.look
  intro d _
  show Blind K vs (if d.errors > c.errors then _ else _) (if d.errors > c.errors then _ else _)
  split
  · exact (blind_spanFrom start).bind fun _ _ _ => .pure _
  · exact .pure _

theorem blind_item? (hrest : c.rest = ts ++ K.left) (hagrees : K.Agrees ts) :
    Blind K ts (item? c) (item? (K.turn ts c)) := by
  apply Blind.of_ne_nil
  intro hne
  have htail : (K.turn ts c).rest.tail = ts.tail ++ K.right := List.tail_append_of_ne_nil hne
  refine Blind.eat (by decide) (fun _ _ _ _ => .pure none) fun _ => ?_
  simp only [Bool.false_eq_true, if_false]
  rw [current_turn hne, current_common hrest hne, htail, hrest, List.tail_append_of_ne_nil hne,
    hagrees.instantiation]
  split
  · exact blind_instantiationItem.map some
  · exact (blind_otherItem hrest hagrees).map some

theorem blind_itemsWithin (kind : UnitKind) {b b' : Nat} (hb : ts.length ≤ b)
    (hb' : ts.length ≤ b') (hagrees : ∀ us, us <:+ ts → us ≠ [] → K.Agrees us) :
    Blind K ts (itemsWithin kind b) (itemsWithin kind b') := by
  induction b generalizing ts b' with
  | zero => exact .of_length hb
  | succ b ih =>
    cases b' with
    | zero => exact .of_length hb'
    | succ b' =>
      apply Blind.of_ne_nil
      intro hne
      apply Blind.lookFrom
      intro c hrest
      have hcurrent := current_common hrest hne
      rw [current_turn hne, hcurrent]
      split
      next => exact Blind.pure [] c hrest
      next hinside =>
        simp only [Bool.or_eq_true, decide_eq_true_eq, not_or] at hinside
        have heats (s : Session) : (((item? c).task c).run s).1.2.rest.length < c.rest.length := by
          obtain ⟨us, hpasses⟩ := Cursor.Passes.exists_run (item? c) c s
          apply hpasses.consumed_lt_iff.mp
          exact consumed_lt_item? (by rw [hcurrent]; exact hinside.1.2)
        have hitem := blind_item? hrest (hagrees ts (List.suffix_refl ts) hne)
        refine hitem.bindEatsFrom hrest heats fun first vs hvs hless => ?_
        have hmore : Blind K vs (itemsWithin kind b) (itemsWithin kind b') :=
          ih (by omega) (by omega) fun us hus => hagrees us (hus.trans hvs)
        exact hmore.bind fun _ _ _ => .pure _

/-- The name of a unit and its items, up to the word that should close it. -/
def unitFront (kind : UnitKind) : ParserM (Identifier × List Item) := do
  let name ← expectIdentifier
  recoverToSemicolon
  let items ← itemsWithin kind (← remaining)
  return (name, items)

theorem blind_unitFront (kind : UnitKind) (hagrees : ∀ us, us <:+ ts → us ≠ [] → K.Agrees us) :
    Blind K ts (unitFront kind) (unitFront kind) := by
  refine blind_expectIdentifier.bind fun name us hus => ?_
  refine blind_recoverToSemicolon.bind fun _ vs hvs => ?_
  refine Blind.remaining fun b b' hb hb' => ?_
  have hitems := blind_itemsWithin kind hb hb' fun ws hws => hagrees ws (hws.trans (hvs.trans hus))
  exact hitems.bind fun _ _ _ => .pure _

end Netlist.Parser
