import Netlist.Proofs.Parser.Mirror

/-!
The common steps of all parsers mirror themselves: spans from one token to another, expected tokens,
names, optional parts and lists.
-/
namespace Netlist.Parser

open List (Forall₂)
open Syntax

variable {F : Frame} {α β : Type} {R : α → β → Prop}

theorem mirror_take {kind : Kind} (h : kind.isUnitStart = true → F.opens) :
    Mirror F Eq (take kind) (take kind) :=
  Mirror.bindEq (.eat kind h) fun _ => .pure rfl

theorem mirror_demand {a otherwise : α} {b otherwise' : β} {r : Except Misuse α}
    {r' : Except Misuse β} (hr : r = .ok a) (hr' : r' = .ok b) (hab : R a b) :
    Mirror F R (demand otherwise r) (demand otherwise' r') := by
  subst hr hr'
  exact .pure hab

theorem mirror_current : Mirror F Eq current current :=
  Mirror.bind .look fun _ _ hc => .pure hc.current

theorem mirror_currentSpan : Mirror F F.span currentSpan currentSpan :=
  Mirror.bind .look fun _ _ hc => .pure hc.currentSpan

theorem mirror_prevSpan : Mirror F F.span prevSpan prevSpan := by
  refine Mirror.bind .look fun c c' hc => ?_
  obtain ⟨s, s', hs, hs', hspan⟩ := hc.prevSpan
  exact mirror_demand hs hs' hspan

theorem mirror_remaining : Mirror F Eq remaining remaining :=
  Mirror.bind .look fun _ _ hc => .pure hc.rest.length_eq

theorem mirror_sees (kind : Kind) : Mirror F Eq (sees kind) (sees kind) :=
  Mirror.bind .look fun _ _ hc => .pure (by rw [hc.current])

theorem mirror_merge {a a' b b' : Span} (ha : F.span a a') (hb : F.span b b') :
    Mirror F F.span (merge a b) (merge a' b') := by
  obtain ⟨hfile, hfile'⟩ := F.span_file ha
  obtain ⟨hfileb, hfileb'⟩ := F.span_file hb
  refine mirror_demand ?_ ?_ (F.span_cover ha hb)
  · rw [Span.merge, if_pos (hfile.trans hfileb.symm)]
  · rw [Span.merge, if_pos (hfile'.trans hfileb'.symm)]

theorem mirror_spanFrom {s s' : Span} (hs : F.span s s') :
    Mirror F F.span (spanFrom s) (spanFrom s') :=
  Mirror.bind mirror_prevSpan fun _ _ hprev => mirror_merge hs hprev

theorem mirror_spanSince {s s' : Span} (hs : F.span s s') (consumed : Nat) :
    Mirror F F.span (spanSince s consumed) (spanSince s' (consumed + F.ahead)) := by
  refine Mirror.bind .look fun c c' hc => ?_
  rw [hc.consumed]
  simp only [gt_iff_lt, Nat.add_lt_add_iff_right]
  split
  · exact mirror_spanFrom hs
  · exact .pure (F.span_atStart hs)

theorem mirror_report {e : SyntaxError} (he : e ≠ .expectedExpression) :
    Mirror F (fun _ _ => F.broken) (report e) (report e) :=
  Mirror.bind mirror_currentSpan fun _ _ hs => .reportAt he hs

theorem mirror_expect {kind : Kind} (h : kind.isUnitStart = true → F.opens) :
    Mirror F (fun _ _ => True) (expect kind) (expect kind) := by
  refine Mirror.bindEq (.eat kind h) fun found => ?_
  split
  · exact .pure trivial
  · refine Mirror.bindEq mirror_current fun here => ?_
    have he : SyntaxError.expected kind here ≠ .expectedExpression := nofun
    exact (mirror_report he).mono fun _ _ _ => trivial

theorem isUnitStart_of_isIdentifier {kind : Kind} (h : kind.isIdentifier = true) :
    kind.isUnitStart = false := by
  cases kind <;> simp_all [Kind.isIdentifier, Kind.isUnitStart]

theorem isUnitStart_of_ne {kind : Kind} (h : ∀ unit, kind ≠ .unitStart unit) :
    kind.isUnitStart = false := by
  cases kind <;> first | rfl | exact absurd rfl (h _)

theorem mirror_nameAt {c c' : Cursor} (hc : F.Cursors c c') (hname : c.current.IsName) :
    Mirror F (Identifier.AlikeAt F c.current) (nameAt c) (nameAt c') := by
  have heof : c.current ≠ .eof := by
    intro heof
    rw [heof] at hname
    rcases hname with hname | hname <;> cases hname
  have hopens : c.current.isUnitStart = true → F.opens := by
    intro hunit
    rcases hname with hname | hname
    · rw [isUnitStart_of_isIdentifier hname] at hunit
      cases hunit
    · rw [hname] at hunit
      cases hunit
  unfold nameAt
  rw [← hc.currentText, ← hc.current]
  refine Mirror.bind (.intern _) fun i j hij => ?_
  refine Mirror.bindEq (mirror_take hopens) fun _ => ?_
  exact .pure ⟨⟨_, hij, hc.leaf heof⟩, hc.currentSpan⟩

theorem mirror_placeholder (hbroken : F.broken) :
    Mirror F (Identifier.Alike F) placeholder placeholder := by
  refine Mirror.bind (.intern _) fun i j hij => ?_
  refine Mirror.bind mirror_currentSpan fun s s' hs => ?_
  exact .pure ⟨⟨_, hij, .inl hbroken⟩, F.span_atStart hs⟩

theorem mirror_nameOr {missing : Kind → SyntaxError}
    (hmissing : ∀ kind, missing kind ≠ .expectedExpression) :
    Mirror F (Identifier.Alike F) (nameOr missing) (nameOr missing) := by
  refine Mirror.bind .look fun c c' hc => ?_
  rw [← hc.current]
  split
  next hname =>
    exact (mirror_nameAt hc (.inl hname)).mono fun _ _ h => h.alike (.inl hname)
  next =>
    exact Mirror.bind (mirror_report (hmissing _)) fun _ _ hbroken => mirror_placeholder hbroken

theorem mirror_expectIdentifier :
    Mirror F (Identifier.Alike F) expectIdentifier expectIdentifier :=
  mirror_nameOr fun _ => nofun

theorem mirror_recoverToSemicolon :
    Mirror F Eq recoverToSemicolon recoverToSemicolon := by
  refine Mirror.bindEq (.skipUntil _ fun kind hkind => ?_) fun _ => ?_
  · cases kind <;> simp_all [Kind.isUnitStart, Kind.isUnitBoundary]
  · exact Mirror.bindEq (.eat .semicolon nofun) fun _ => .pure rfl

section Parts

variable {x : ParserM α} {y : ParserM β}

private theorem mirror_some (h : Mirror F R x y) :
    Mirror F (Option.Rel R) (some <$> x) (some <$> y) :=
  h.map fun _ _ hab => .some hab

theorem mirror_whenAt (kind : Kind) (h : Mirror F R x y) :
    Mirror F (Option.Rel R) (whenAt kind x) (whenAt kind y) := by
  refine Mirror.bindEq (mirror_sees kind) fun found => ?_
  split
  · exact mirror_some h
  · exact .pure .none

theorem mirror_unlessAt (kind : Kind) (h : Mirror F R x y) :
    Mirror F (Option.Rel R) (unlessAt kind x) (unlessAt kind y) := by
  refine Mirror.bindEq (mirror_sees kind) fun found => ?_
  split
  · exact .pure .none
  · exact mirror_some h

theorem mirror_after {kind : Kind} (hkind : kind.isUnitStart = false) (h : Mirror F R x y) :
    Mirror F (Option.Rel R) (after kind x) (after kind y) := by
  refine Mirror.bindEq (.eat kind (by simp [hkind])) fun found => ?_
  split
  · exact mirror_some h
  · exact .pure .none

theorem mirror_commaItems (h : Mirror F R x y) (bound : Nat) :
    Mirror F (Forall₂ R) (commaItems x bound) (commaItems y bound) := by
  induction bound with
  | zero => exact .pure .nil
  | succ bound ih =>
    refine Mirror.bindEq (.eat .comma nofun) fun found => ?_
    split
    · refine Mirror.bind h fun a b hab => ?_
      exact Mirror.bind ih fun as bs habs => .pure (.cons hab habs)
    · exact .pure .nil

theorem mirror_moreItems (h : Mirror F R x y) :
    Mirror F (Forall₂ R) (moreItems x) (moreItems y) :=
  Mirror.bindEq mirror_remaining fun bound => mirror_commaItems h bound

theorem mirror_itemsWhile (kind : Kind) (h : Mirror F R x y) (bound : Nat) :
    Mirror F (Forall₂ R) (itemsWhile kind x bound) (itemsWhile kind y bound) := by
  induction bound with
  | zero => exact .pure .nil
  | succ bound ih =>
    refine Mirror.bindEq (mirror_sees kind) fun found => ?_
    split
    · refine Mirror.bind h fun a b hab => ?_
      exact Mirror.bind ih fun as bs habs => .pure (.cons hab habs)
    · exact .pure .nil

theorem mirror_itemsAt (kind : Kind) (h : Mirror F R x y) :
    Mirror F (Forall₂ R) (itemsAt kind x) (itemsAt kind y) :=
  Mirror.bindEq mirror_remaining fun bound => mirror_itemsWhile kind h bound

end Parts

theorem mirror_endLabel? :
    Mirror F (Option.Rel (Identifier.Alike F)) endLabel? endLabel? :=
  mirror_after rfl mirror_expectIdentifier

end Netlist.Parser
