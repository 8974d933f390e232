import Netlist.Parser.Unit
import Netlist.Proofs.Parser.Mirror.Instantiation

/-!
The parsers of items, units and whole files mirror themselves. No item goes past the word that opens
a unit; only the parser of a unit consumes that word.
-/
namespace Netlist.Parser

open List (Forall₂)
open Syntax

variable {F : Frame} {c c' : Cursor}

theorem mirror_passOver (prototype : Bool) (bound nest blocks : Nat) :
    Mirror F Eq (passOver prototype bound nest blocks) (passOver prototype bound nest blocks) := by
  induction bound generalizing nest blocks with
  | zero => exact .pure rfl
  | succ bound ih =>
    have hmore (taken : Kind) (htaken : taken.isUnitStart = false) (nest blocks : Nat) :
        Mirror F Eq (do take taken; passOver prototype bound nest blocks)
          (do take taken; passOver prototype bound nest blocks) :=
      Mirror.bindEq (mirror_take (by rw [htaken]; nofun)) fun _ => ih nest blocks
    have helse : Mirror F Eq
        (do if ← sees (.word .elseWord) then passOver prototype bound 0 0)
        (do if ← sees (.word .elseWord) then passOver prototype bound 0 0) := by
      refine Mirror.bindEq (mirror_sees _) fun found => ?_
      split
      · exact ih 0 0
      · exact .pure rfl
    refine Mirror.bind .look fun c c' hc => ?_
    obtain ⟨before, hbefore, hbefore'⟩ := hc.prevKind
    refine Mirror.bind (mirror_demand hbefore hbefore' rfl) fun before before' hsame => ?_
    subst hsame
    rw [← hc.current]
    split
    · exact .pure rfl
    · exact .pure rfl
    · exact .pure rfl
    · next hkind => exact hmore _ (by rw [hkind]; rfl) _ _
    · next hkind => exact hmore _ (by rw [hkind]; rfl) _ _
    · next hkind => exact hmore _ (by rw [hkind]; rfl) _ _
    · next hkind => exact hmore _ (by rw [hkind]; rfl) _ _
    · next hkind => exact hmore _ (by rw [hkind]; rfl) _ _
    · next hkind => exact hmore _ (by rw [hkind]; rfl) _ _
    · next hkind => exact hmore _ (by rw [hkind]; rfl) _ _
    · next hkind => exact hmore _ (by rw [hkind]; rfl) _ _
    · refine Mirror.bindEq (mirror_take nofun) fun _ => ?_
      split
      · exact helse
      · exact ih nest blocks
    · split
      · exact .pure rfl
      · refine Mirror.bindEq (mirror_take nofun) fun _ => ?_
        split
        · exact Mirror.bind mirror_endLabel? fun _ _ _ => helse
        · exact ih nest (blocks - 1)
    · refine Mirror.bindEq (mirror_take nofun) fun _ => ?_
      split
      · exact ih nest blocks
      · exact ih nest (blocks + 1)
    · next hunit _ _ _ _ _ _ _ _ _ _ _ _ =>
      exact hmore _ (isUnitStart_of_ne hunit) nest blocks

theorem mirror_skipItem (hc : F.Cursors c c') : Mirror F Eq (skipItem c) (skipItem c') := by
  unfold skipItem
  rw [hc.current, hc.rest.length_eq]
  exact mirror_passOver _ _ 0 0

theorem mirror_takeSome (hc : F.Cursors c c') (hunit : c.current.isUnitStart = false) :
    Mirror F Eq (takeSome c) (takeSome c') := by
  refine Mirror.bind .look fun d d' hd => ?_
  rw [hd.consumed, hc.consumed, ← hc.current]
  simp only [Nat.add_right_cancel_iff]
  split
  · exact mirror_take (by rw [hunit]; nofun)
  · exact .pure rfl

theorem mirror_brokenItem (hc : F.Cursors c c') (hunit : c.current.isUnitStart = false) :
    Mirror F (Item.Alike F) (brokenItem c) (brokenItem c') := by
  refine Mirror.bind (mirror_report nofun) fun _ _ hbroken => ?_
  refine Mirror.bindEq mirror_recoverToSemicolon fun _ => ?_
  refine Mirror.bindEq (mirror_takeSome hc hunit) fun _ => ?_
  exact Mirror.bind (mirror_spanFrom hc.currentSpan) fun s s' hs => .pure (.error hbroken hs)

theorem mirror_otherItem (hc : F.Cursors c c') (hunit : c.current.isUnitStart = false)
    (heof : c.current ≠ .eof) : Mirror F (Item.Alike F) (otherItem c) (otherItem c') := by
  have hbroken := mirror_brokenItem hc hunit
  unfold otherItem
  rw [← hc.startsOtherItem]
  split
  · refine Mirror.bindEq (mirror_skipItem hc) fun _ => ?_
    refine Mirror.bind .look fun d d' hd => ?_
    rw [hd.consumed, hc.consumed]
    simp only [gt_iff_lt, Nat.add_lt_add_iff_right]
    split
    · refine Mirror.bind (mirror_spanFrom hc.currentSpan) fun s s' hs => ?_
      exact .pure (.skipped (hc.leaf heof) hc.currentSpan hs)
    · exact hbroken
  · exact hbroken

theorem mirror_instantiationItem :
    Mirror F (Item.Alike F) instantiationItem instantiationItem := by
  refine Mirror.bind mirror_currentSpan fun start start' hstart => ?_
  refine Mirror.bind .look fun c c' hc => ?_
  refine Mirror.bind mirror_instantiation fun stmt stmt' hstmt => ?_
  refine Mirror.bind .look fun d d' hd => ?_
  rw [← hd.errors, ← hc.errors]
  split
  next hmore =>
    have hbroken : F.broken := by
      by_cases hnew : d.errors = F.errors
      · exact hc.faulty (by omega)
      · exact hd.faulty hnew
    exact Mirror.bind (mirror_spanFrom hstart) fun s s' hs => .pure (.error hbroken hs)
  next => exact .pure (.instantiation hstmt)

theorem mirror_item? (hc : F.Cursors c c') (hunit : c.current.isUnitStart = false)
    (heof : c.current ≠ .eof) :
    Mirror F (Option.Rel (Item.Alike F)) (item? c) (item? c') := by
  refine Mirror.bindEq (.eat .semicolon nofun) fun empty => ?_
  cases empty with
  | true => exact .pure .none
  | false =>
    simp only [Bool.false_eq_true, if_false]
    rw [← hc.current, ← hc.continuesInstantiation]
    split
    · exact mirror_instantiationItem.map fun _ _ hi => .some hi
    · exact (mirror_otherItem hc hunit heof).map fun _ _ hi => .some hi

private theorem toList_alike {i i' : Option Item} (h : Option.Rel (Item.Alike F) i i') :
    Forall₂ (Item.Alike F) i.toList i'.toList := by
  cases h with
  | none => exact .nil
  | some hi => exact .cons hi .nil

theorem mirror_itemsWithin (kind : UnitKind) (bound : Nat) :
    Mirror F (Forall₂ (Item.Alike F)) (itemsWithin kind bound) (itemsWithin kind bound) := by
  induction bound with
  | zero => exact .pure .nil
  | succ bound ih =>
    refine Mirror.bind .look fun c c' hc => ?_
    rw [← hc.current]
    split
    next => exact .pure .nil
    next hinside =>
      simp only [Bool.or_eq_true, decide_eq_true_eq, not_or, Bool.not_eq_true] at hinside
      obtain ⟨⟨-, heof⟩, hunit⟩ := hinside
      refine Mirror.bind (mirror_item? hc hunit heof) fun first first' hfirst => ?_
      refine Mirror.bind ih fun rest rest' hrest => ?_
      exact .pure (List.rel_append (toList_alike hfirst) hrest)

theorem mirror_unitBody (kind : UnitKind) :
    Mirror F (fun b b' => b.1.Alike F b'.1 ∧ Forall₂ (Item.Alike F) b.2.1 b'.2.1 ∧
      Option.Rel (Identifier.Alike F) b.2.2 b'.2.2) (unitBody kind) (unitBody kind) := by
  refine Mirror.bind mirror_expectIdentifier fun name name' hname => ?_
  refine Mirror.bindEq mirror_recoverToSemicolon fun _ => ?_
  refine Mirror.bindEq mirror_remaining fun bound => ?_
  refine Mirror.bind (mirror_itemsWithin kind bound) fun items items' hitems => ?_
  refine Mirror.bind (mirror_expect nofun) fun _ _ _ => ?_
  exact Mirror.bind mirror_endLabel? fun label label' hlabel => .pure ⟨hname, hitems, hlabel⟩

theorem mirror_designUnit (hopens : F.opens) (kind : UnitKind) :
    Mirror F (DesignUnit.Alike F) (designUnit kind) (designUnit kind) := by
  refine Mirror.bind mirror_currentSpan fun start start' hstart => ?_
  refine Mirror.bindEq (mirror_take fun _ => hopens) fun _ => ?_
  refine Mirror.bind (mirror_unitBody kind) fun body body' hbody => ?_
  obtain ⟨hname, hitems, hlabel⟩ := hbody
  exact Mirror.bind (mirror_spanFrom hstart) fun s s' hs => .pure ⟨rfl, hname, hitems, hlabel, hs⟩

theorem mirror_unitsWithin (hopens : F.opens) (bound : Nat) :
    Mirror F (Forall₂ (DesignUnit.Alike F)) (unitsWithin bound) (unitsWithin bound) := by
  induction bound with
  | zero => exact .pure .nil
  | succ bound ih =>
    refine Mirror.bindEq mirror_current fun kind => ?_
    split
    · exact .pure .nil
    · refine Mirror.bind (mirror_designUnit hopens _) fun first first' hfirst => ?_
      exact Mirror.bind ih fun rest rest' hrest => .pure (.cons hfirst hrest)
    · refine Mirror.bind (mirror_report nofun) fun _ _ _ => ?_
      exact Mirror.bindEq (.skipUntil _ fun _ h => h) fun _ => ih

/-- The parser of files mirrors itself. -/
theorem mirror_sourceText (hopens : F.opens) :
    Mirror F (SourceText.Alike F) sourceText sourceText := by
  refine Mirror.bind mirror_currentSpan fun start start' hstart => ?_
  refine Mirror.bind .look fun c c' hc => ?_
  refine Mirror.bindEq mirror_remaining fun bound => ?_
  refine Mirror.bind (mirror_unitsWithin hopens bound) fun units units' hunits => ?_
  rw [hc.consumed]
  exact Mirror.bind (mirror_spanSince hstart _) fun s s' hs => .pure ⟨hunits, hs⟩

end Netlist.Parser
