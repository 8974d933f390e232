import Netlist.Source.Json
import Mathlib.Data.List.Basic

/-!
What has been written as JSON is read back. Numbers are read if they fit the words that hold them,
texts and alternatives always, lists if each of their items is, and optional values if nothing else
is written as null. Values that are read with a bound on their depth are read if the bound is not
below it.
-/
namespace Netlist

namespace Json

variable {α : Type}

/-- Each value that can be stored is read back from what it is written as. -/
def Reads (write : α → Json) (read : Json → Option α) (storable : α → Prop) : Prop :=
  ∀ a, storable a → read (write a) = some a

/-- The encoding loses nothing: each value that can be stored is read back, and no other one is
written in the same way. -/
structure Lossless (write : α → Json) (read : Json → Option α) (storable : α → Prop) : Prop where
  reads : Reads write read storable
  injective : ∀ a b, storable a → storable b → write a = write b → a = b

section Values

variable {write : α → Json} {read : Json → Option α}

theorem word?_ofNat {n : Nat} (h : n < UInt32.size) : word? (ofNat n) = some n := if_pos h

theorem wideWord?_ofNat {n : Nat} (h : n < UInt64.size) : wideWord? (ofNat n) = some n := if_pos h

theorem char?_toString (c : Char) : char? (.string c.toString) = some c := by
  simp [char?]

theorem list?_ofList {items : List α} (h : ∀ a ∈ items, read (write a) = some a) :
    list? read (ofList write items) = some items := by
  have hread : (items.map write).mapM read = some items := by
    induction items with
    | nil => rfl
    | cons a items ih =>
      obtain ⟨ha, hitems⟩ := List.forall_mem_cons.mp h
      rw [List.map_cons, List.mapM_cons, ha, ih hitems]
      rfl
  exact hread

theorem option?_ofOption {value : Option α} (hnull : read .null = none)
    (h : ∀ a ∈ value, read (write a) = some a) :
    option? read (ofOption write value) = some value := by
  cases value with
  | none => rfl
  | some a =>
    have ha := h a rfl
    have hwritten : option? read (write a) = (read (write a)).map some := by
      cases hjson : write a with
      | null =>
        rw [hjson, hnull] at ha
        cases ha
      | _ => rfl
    exact hwritten.trans (by rw [ha]; rfl)

end Values

section Depth

theorem depth_pos (j : Json) : 0 < j.depth := by
  cases j <;> simp [depth]

theorem depth_le_items {j : Json} {items : List Json} (h : j ∈ items) :
    j.depth ≤ depthOfItems items := by
  induction items with
  | nil => cases h
  | cons i items ih =>
    rw [depthOfItems]
    rcases List.mem_cons.mp h with rfl | h
    · exact Nat.le_max_left _ _
    · exact Nat.le_trans (ih h) (Nat.le_max_right _ _)

theorem depth_le_members {j : Json} {members : List (String × Json)}
    (h : j ∈ members.map Prod.snd) : j.depth ≤ depthOfMembers members := by
  induction members with
  | nil => cases h
  | cons m members ih =>
    obtain ⟨name, i⟩ := m
    rw [depthOfMembers]
    rcases List.mem_cons.mp h with rfl | h
    · exact Nat.le_max_left _ _
    · exact Nat.le_trans (ih h) (Nat.le_max_right _ _)

variable {bound : Nat} {name : String} {content j : Json}

theorem depth_le_content (h : (tagged name content).depth ≤ bound + 1) :
    content.depth ≤ bound := by
  have hcontent : content.depth ≤ depthOfMembers [(name, content)] :=
    depth_le_members (List.mem_singleton_self _)
  rw [tagged, depth] at h
  omega

theorem depth_le_field {fields : List (String × Json)}
    (h : (tagged name (.object fields)).depth ≤ bound + 1) (hj : j ∈ fields.map Prod.snd) :
    j.depth ≤ bound := by
  have hfields := depth_le_content h
  have hfield := depth_le_members hj
  rw [depth] at hfields
  omega

theorem depth_le_item {items : List Json} (h : (Json.array items).depth ≤ bound) :
    ∀ j ∈ items, j.depth ≤ bound := by
  intro j hj
  have hitem := depth_le_items hj
  rw [depth] at h
  omega

/-- It is enough to read with a bound that is not zero. -/
theorem reads_of_succ {read : Nat → Json → Option α} {a : α}
    (h : ∀ bound, j.depth ≤ bound + 1 → read (bound + 1) j = some a) (bound : Nat)
    (hdepth : j.depth ≤ bound) : read bound j = some a := by
  cases bound with
  | zero => exact absurd (depth_pos j) (Nat.not_lt.mpr hdepth)
  | succ bound => exact h bound hdepth

end Depth

end Json

/-- The numbers of a span fit their words. -/
structure Span.Storable (s : Span) : Prop where
  file : s.file < UInt32.size
  start : s.start < UInt32.size
  stop : s.stop < UInt32.size

theorem Span.reads : Json.Reads Span.toJson Span.ofJson? Span.Storable := by
  intro s h
  show (do return ⟨← (Json.ofNat s.file).word?, ← (Json.ofNat s.start).word?,
    ← (Json.ofNat s.stop).word?⟩ : Option Span) = _
  rw [Json.word?_ofNat h.file, Json.word?_ofNat h.start, Json.word?_ofNat h.stop]
  rfl

end Netlist
