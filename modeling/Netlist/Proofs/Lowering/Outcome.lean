import Netlist.Lowering.Module
import Netlist.Proofs.Session.Pairing
import Netlist.Proofs.Syntax.Alike

/-!
How the outcomes of two lowerings correspond. Work on the session must not fail at all; a lowering
gives values on both sides, or faults of the same kind at corresponding spans. Along goes a
condition under which there is a value: it holds if there is one, and if it holds and there is none
the source was broken.
-/
namespace Netlist

open List (Forall₂)

variable {α β γ δ : Type} {F : Frame} {P : Pairing}

/-- Both did their work, with corresponding results. -/
inductive Worked (R : α → β → Prop) : Except Misuse α → Except Misuse β → Prop
  | ok {a : α} {b : β} : R a b → Worked R (.ok a) (.ok b)

/-- Two pieces of work on the session that go hand in hand and do not fail. -/
def SessionM.Agree (P : Pairing) (R : α → β → Prop) (x : SessionM α) (y : SessionM β) : Prop :=
  Paired P (Worked R) x.run y.run

namespace SessionM.Agree

variable {Q : α → β → Prop} {R : γ → δ → Prop} {x : SessionM α} {y : SessionM β}

theorem pure {a : α} {b : β} (h : Q a b) : Agree P Q (Pure.pure a) (Pure.pure b) := .done (.ok h)

theorem bind {f : α → SessionM γ} {g : β → SessionM δ} (h : Agree P Q x y)
    (hnext : ∀ a b, Q a b → Agree P R (f a) (g b)) : Agree P R (x >>= f) (y >>= g) := by
  refine Paired.chain (show Paired P (Worked Q) x y from h) ?_
  rintro _ _ ⟨hab⟩
  exact hnext _ _ hab

theorem mono {Q' : α → β → Prop} (h : Agree P Q x y) (himp : ∀ a b, Q a b → Q' a b) :
    Agree P Q' x y := by
  refine Paired.mono h ?_
  rintro _ _ ⟨hab⟩
  exact .ok (himp _ _ hab)

theorem lift {t : Task α} {t' : Task β} (h : Paired P Q t t') :
    Agree P Q (ExceptT.lift t) (ExceptT.lift t') :=
  Paired.chain h fun _ _ hab => .done (.ok hab)

theorem ofExcept {a : α} {b : β} {r : Except Misuse α} {r' : Except Misuse β} (hr : r = .ok a)
    (hr' : r' = .ok b) (h : Q a b) : Agree P Q (SessionM.ofExcept r) (SessionM.ofExcept r') := by
  subst hr hr'
  exact .pure h

/-- Corresponding lists give corresponding results, one by one. -/
theorem mapM {S : γ → δ → Prop} {f : γ → SessionM α} {g : δ → SessionM β} {cs : List γ}
    {ds : List δ} (hlist : Forall₂ S cs ds) (h : ∀ c d, S c d → Agree P Q (f c) (g d)) :
    Agree P (Forall₂ Q) (cs.mapM f) (ds.mapM g) := by
  have hloop {as : List α} {bs : List β} (hacc : Forall₂ Q as bs) :
      Agree P (Forall₂ Q) (List.mapM.loop f cs as) (List.mapM.loop g ds bs) := by
    induction hlist generalizing as bs with
    | nil => exact .pure (List.rel_reverse hacc)
    | cons hcd hrest ih => exact bind (h _ _ hcd) fun a b hab => ih (.cons hab hacc)
  exact hloop .nil

/-- What is known of one piece of work that agrees with itself. -/
theorem run_self {x : SessionM α} {Q : α → α → Prop} {s t : Session} {r : Except Misuse α}
    (hrun : x.run.run s = (r, t)) (h : Agree P Q x x) (hold : P.Holds s t s t) :
    ∃ a, r = .ok a ∧ Q a a ∧ Forall₂ P.diag (x.run.emitted s) (x.run.emitted s) ∧
      x.run.Hits s := by
  obtain ⟨hresult, hdiags, hhits⟩ := Paired.run h (show P.Holds s _ s _ by rwa [hrun])
  rw [hrun] at hresult
  cases hresult with
  | ok ha => exact ⟨_, rfl, ha, hdiags, hhits⟩

end SessionM.Agree

namespace Lowering

/-- Faults of the same kind at corresponding spans. That a statement has no instances is none of
them: every statement has some. -/
inductive Fault.Alike (F : Frame) : Fault → Fault → Prop
  | malformed {part : Part} {s s' : Span} :
      F.span s s' → Alike F (.malformed part s) (.malformed part s')

inductive Outcomes (F : Frame) (W : Prop) (R : α → β → Prop) :
    Except Fault α → Except Fault β → Prop
  | value {a : α} {b : β} : W → R a b → Outcomes F W R (.ok a) (.ok b)
  | fault {f f' : Fault} : (W → F.broken) → f.Alike F f' → Outcomes F W R (.error f) (.error f')

/-- Two lowerings that go hand in hand; both have values if `W` holds and nothing is broken. -/
def LowerM.Agree (F : Frame) (P : Pairing) (W : Prop) (R : α → β → Prop) (x : LowerM α)
    (y : LowerM β) : Prop :=
  SessionM.Agree P (Outcomes F W R) x.run y.run

namespace LowerM.Agree

variable {V W : Prop} {Q : α → β → Prop} {R : γ → δ → Prop} {x : LowerM α} {y : LowerM β}

theorem pure {a : α} {b : β} (hW : W) (h : Q a b) :
    Agree F P W Q (Pure.pure a) (Pure.pure b) :=
  SessionM.Agree.pure (.value hW h)

theorem fail {f f' : Fault} (hW : W → F.broken) (h : f.Alike F f') :
    Agree F P W Q (Lowering.fail f) (Lowering.fail f') :=
  SessionM.Agree.pure (.fault hW h)

theorem bind {f : α → LowerM γ} {g : β → LowerM δ} (h : Agree F P V Q x y)
    (hnext : ∀ a b, Q a b → Agree F P W R (f a) (g b)) :
    Agree F P (V ∧ W) R (x >>= f) (y >>= g) := by
  refine SessionM.Agree.bind (show SessionM.Agree P (Outcomes F V Q) x y from h) ?_
  rintro _ _ (⟨hV, hab⟩ | ⟨hbroken, hfault⟩)
  · refine SessionM.Agree.mono (hnext _ _ hab) ?_
    rintro _ _ (⟨hW, hcd⟩ | ⟨hbroken, hfault⟩)
    · exact .value ⟨hV, hW⟩ hcd
    · exact .fault (fun hVW => hbroken hVW.2) hfault
  · exact SessionM.Agree.pure (.fault (fun hVW => hbroken hVW.1) hfault)

/-- What follows the last step that can have a fault has no condition. -/
theorem bindLast {f : α → LowerM γ} {g : β → LowerM δ} (h : Agree F P W Q x y)
    (hnext : ∀ a b, Q a b → Agree F P True R (f a) (g b)) :
    Agree F P W R (x >>= f) (y >>= g) := by
  have hbind := h.bind hnext
  rwa [and_true] at hbind

theorem map {f : α → γ} {g : β → δ} (h : Agree F P W Q x y) (hres : ∀ a b, Q a b → R (f a) (g b)) :
    Agree F P W R (x >>= fun a => Pure.pure (f a)) (y >>= fun b => Pure.pure (g b)) :=
  h.bindLast fun a b hab => pure trivial (hres a b hab)

theorem lift {x : SessionM α} {y : SessionM β} (hW : W) (h : SessionM.Agree P Q x y) :
    Agree F P W Q (ExceptT.lift x) (ExceptT.lift y) :=
  SessionM.Agree.bind h fun _ _ hab => SessionM.Agree.pure (.value hW hab)

/-- A step that only works on the session has no condition of its own. -/
theorem bindLift {x : SessionM α} {y : SessionM β} {f : α → LowerM γ} {g : β → LowerM δ}
    (h : SessionM.Agree P Q x y) (hnext : ∀ a b, Q a b → Agree F P W R (f a) (g b)) :
    Agree F P W R (ExceptT.lift x >>= f) (ExceptT.lift y >>= g) := by
  have hbind := (lift trivial h).bind hnext
  rwa [true_and] at hbind

theorem mono {Q' : α → β → Prop} (h : Agree F P W Q x y) (himp : ∀ a b, Q a b → Q' a b) :
    Agree F P W Q' x y := by
  refine SessionM.Agree.mono h ?_
  rintro _ _ (⟨hW, hab⟩ | ⟨hbroken, hfault⟩)
  · exact .value hW (himp _ _ hab)
  · exact .fault hbroken hfault

/-- Corresponding lists give corresponding results, one for each entry. -/
theorem mapM {S : γ → δ → Prop} {f : γ → LowerM α} {g : δ → LowerM β} {W : γ → Prop} {cs : List γ}
    {ds : List δ} (hlist : Forall₂ S cs ds) (h : ∀ c d, S c d → Agree F P (W c) Q (f c) (g d)) :
    Agree F P (∀ c ∈ cs, W c) (fun as bs => Forall₂ Q as bs ∧ as.length = cs.length)
      (cs.mapM f) (ds.mapM g) := by
  have hloop {as : List α} {bs : List β} (hacc : Forall₂ Q as bs) :
      Agree F P (∀ c ∈ cs, W c)
        (fun as' bs' => Forall₂ Q as' bs' ∧ as'.length = as.length + cs.length)
        (List.mapM.loop f cs as) (List.mapM.loop g ds bs) := by
    induction hlist generalizing as bs with
    | nil => exact pure nofun ⟨List.rel_reverse hacc, List.length_reverse⟩
    | cons hcd hrest ih =>
      rw [List.forall_mem_cons]
      refine bind (h _ _ hcd) fun a b hab => mono (ih (.cons hab hacc)) ?_
      rintro as' bs' ⟨hall, hlength⟩
      refine ⟨hall, ?_⟩
      rw [hlength, List.length_cons, List.length_cons]
      omega
  refine mono (hloop .nil) ?_
  rintro as bs ⟨hall, hlength⟩
  exact ⟨hall, by simpa using hlength⟩

end LowerM.Agree

end Lowering

end Netlist
