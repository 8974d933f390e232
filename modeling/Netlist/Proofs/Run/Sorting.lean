import Netlist.Run
import Mathlib.Data.List.Forall2

/-!
The order of diagnostics. Sorting is stable, so it keeps the order of any part of the list that it
sorts; and diagnostics of different files are never mixed. So the sorted list is made of the sorted
lists of the files, one behind the other.
-/
namespace Netlist

namespace Run

section Stable

variable {α : Type} {le : α → α → Bool} (htrans : ∀ a b c, le a b → le b c → le a c)
  (htotal : ∀ a b, le a b || le b a)

include htrans htotal

/-- An entry goes between those that must come first and those that need not. -/
theorem mergeSort_cons_eq (a : α) (l : List α) :
    (a :: l).mergeSort le = ((l.mergeSort le).filter fun b => !le a b) ++
        a :: (l.mergeSort le).filter (fun b => le a b) ∧
      l.mergeSort le = ((l.mergeSort le).filter fun b => !le a b) ++
        (l.mergeSort le).filter fun b => le a b := by
  obtain ⟨before, after, hcons, hsort, hbefore⟩ := List.mergeSort_cons htrans htotal a l
  have hsorted : (before ++ a :: after).Pairwise fun a b => le a b = true := by
    rw [← hcons]
    exact List.pairwise_mergeSort htrans htotal (a :: l)
  have hafter : ∀ b ∈ after, le a b = true :=
    (List.pairwise_cons.mp (List.pairwise_append.mp hsorted).2.1).1
  have hnone : ∀ b ∈ before, le a b = false := by simpa using hbefore
  have hfirst : ((l.mergeSort le).filter fun b => !le a b) = before := by
    rw [hsort, List.filter_append, List.filter_eq_self.mpr (by simpa using hnone),
      List.filter_eq_nil_iff.mpr (by simpa using hafter), List.append_nil]
  have hsecond : ((l.mergeSort le).filter fun b => le a b) = after := by
    rw [hsort, List.filter_append, List.filter_eq_nil_iff.mpr (by simpa using hnone),
      List.filter_eq_self.mpr hafter, List.nil_append]
  rw [hfirst, hsecond]
  exact ⟨hcons, hsort⟩

/-- Sorting a part gives that part of the sorted list. -/
theorem filter_mergeSort (p : α → Bool) (l : List α) :
    (l.mergeSort le).filter p = (l.filter p).mergeSort le := by
  induction l with
  | nil => simp
  | cons a l ih =>
    obtain ⟨hcons, hsort⟩ := mergeSort_cons_eq htrans htotal a l
    rw [hcons, List.filter_append]
    cases ha : p a with
    | true =>
      have hpart := (mergeSort_cons_eq htrans htotal a (l.filter p)).1
      rw [← ih, List.filter_comm, List.filter_comm (fun b => le a b)] at hpart
      rw [List.filter_cons_of_pos ha, List.filter_cons_of_pos ha, hpart]
    | false =>
      have hskip : ¬ p a = true := by simp [ha]
      rw [List.filter_cons_of_neg hskip, List.filter_cons_of_neg hskip, ← ih,
        ← List.filter_append, ← hsort]

end Stable

section Parts

variable {α : Type} {key : α → Nat}

private theorem eq_filter_append {n : Nat} {l : List α}
    (hsorted : l.Pairwise fun a b => key a ≤ key b) (hkey : ∀ a ∈ l, key a < n + 1) :
    l = (l.filter fun a => key a < n) ++ l.filter fun a => key a = n := by
  induction l with
  | nil => rfl
  | cons a l ih =>
    obtain ⟨hfirst, hrest⟩ := List.pairwise_cons.mp hsorted
    obtain ⟨ha, hl⟩ := List.forall_mem_cons.mp hkey
    by_cases hlt : key a < n
    · rw [List.filter_cons_of_pos (by simpa using hlt),
        List.filter_cons_of_neg (by simpa using Nat.ne_of_lt hlt), List.cons_append, ← ih hrest hl]
    · have hlast : ∀ b ∈ a :: l, key b = n := by
        intro b hb
        rcases List.mem_cons.mp hb with rfl | hb
        · omega
        · have hle := hfirst b hb
          have hlt' := hl b hb
          omega
      have hnone : (a :: l).filter (fun a => key a < n) = [] := by
        rw [List.filter_eq_nil_iff]
        intro b hb
        simp [hlast b hb]
      rw [hnone, List.nil_append, List.filter_eq_self.mpr (by simpa using hlast)]

/-- A list in the order of keys is made of its parts with each key. -/
theorem eq_flatMap_filter {n : Nat} {l : List α} (hsorted : l.Pairwise fun a b => key a ≤ key b)
    (hkey : ∀ a ∈ l, key a < n) :
    l = (List.range n).flatMap fun k => l.filter fun a => key a = k := by
  induction n generalizing l with
  | zero =>
    cases l with
    | nil => rfl
    | cons a l => exact absurd (hkey a List.mem_cons_self) (Nat.not_lt_zero _)
  | succ n ih =>
    have hless : (l.filter fun a => key a < n) =
        (List.range n).flatMap fun k => l.filter fun a => key a = k := by
      refine (ih (hsorted.filter _) (by simp)).trans (List.flatMap_congr fun k hk => ?_)
      rw [List.filter_filter]
      apply List.filter_congr
      intro a _
      have hlt := List.mem_range.mp hk
      by_cases ha : key a = k
      · simp [ha, hlt]
      · simp [ha]
    rw [List.range_succ, List.flatMap_append, List.flatMap_singleton, ← hless]
    exact eq_filter_append hsorted hkey

end Parts

/-- Lists that correspond are sorted to lists that correspond, if the orders do. -/
theorem forall₂_mergeSort {α β : Type} {R : α → β → Prop} {le : α → α → Bool} {le' : β → β → Bool}
    {as : List α} {bs : List β} (h : List.Forall₂ R as bs)
    (hle : ∀ a b c d, R a b → R c d → le a c = le' b d) :
    List.Forall₂ R (as.mergeSort le) (bs.mergeSort le') := by
  obtain ⟨hlength, hzip⟩ := List.forall₂_iff_zip.mp h
  -- Both lists are the two sides of one list of pairs, and both sorts sort the pairs.
  have hleft : as.mergeSort le =
      ((as.zip bs).mergeSort fun p q => le p.1 q.1).map Prod.fst := by
    rw [List.map_mergeSort (s := le) (fun _ _ _ _ => rfl), List.map_fst_zip (Nat.le_of_eq hlength)]
  have hright : bs.mergeSort le' =
      ((as.zip bs).mergeSort fun p q => le p.1 q.1).map Prod.snd := by
    have hsame : ∀ p ∈ as.zip bs, ∀ q ∈ as.zip bs, le p.1 q.1 = le' p.2 q.2 := by
      intro p hp q hq
      exact hle _ _ _ _ (hzip hp) (hzip hq)
    rw [List.map_mergeSort hsame, List.map_snd_zip (Nat.le_of_eq hlength.symm)]
  rw [hleft, hright, List.forall₂_map_left_iff, List.forall₂_map_right_iff, List.forall₂_same]
  intro p hp
  exact hzip (List.mem_mergeSort.mp hp)

theorem inOrder_iff {files : Nat} {a b : Diagnostic} :
    inOrder files a b = true ↔ rank files a < rank files b ∨
      rank files a = rank files b ∧ a.span.start ≤ b.span.start := by
  simp [inOrder]

/-- The sorted diagnostics of a run are the sorted diagnostics of its files. -/
theorem mergeSort_files {files : Nat} {ds : List Diagnostic}
    (hfiles : ∀ d ∈ ds, d.span.file < files) :
    ds.mergeSort (inOrder files) = (List.range files).flatMap fun n =>
      (ds.filter fun d => d.span.file = n).mergeSort (inOrder files) := by
  have htrans (a b c : Diagnostic) (hab : inOrder files a b = true)
      (hbc : inOrder files b c = true) : inOrder files a c = true := by
    rw [inOrder_iff] at *
    omega
  have htotal (a b : Diagnostic) : (inOrder files a b || inOrder files b a) = true := by
    rw [Bool.or_eq_true, inOrder_iff, inOrder_iff]
    omega
  have hmem : ∀ d ∈ ds.mergeSort (inOrder files), d.span.file < files := fun d hd =>
    hfiles d (List.mem_mergeSort.mp hd)
  have hsorted : (ds.mergeSort (inOrder files)).Pairwise fun a b => a.span.file ≤ b.span.file := by
    refine (List.pairwise_mergeSort htrans htotal ds).imp_of_mem fun {a b} ha hb hab => ?_
    rw [inOrder_iff, rank, rank, if_pos (hmem a ha), if_pos (hmem b hb)] at hab
    omega
  refine (eq_flatMap_filter hsorted hmem).trans (List.flatMap_congr fun n _ => ?_)
  exact filter_mergeSort htrans htotal _ ds

end Run

end Netlist
