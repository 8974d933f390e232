import Netlist.Proofs.Token.Lexing

/-!
Tokens cut into stretches. A stretch stands for a value that has a span, or for nothing. If the span
runs from the first token of the stretch to the last, then each token lies in the span of its own
stretch and in no other one, and the spans are in order.
-/
namespace Netlist

/-- Some tokens in a row and what they stand for, if anything. -/
structure Stretch (α : Type) where
  tokens : List Token
  value : Option α

/-- A span from the first of some tokens to the last. -/
def Span.Over (file : Nat) (span : Span) (ts : List Token) : Prop :=
  ∃ first last, ts.head? = some first ∧ ts.getLast? = some last ∧
    span = ⟨file, first.start, last.stop⟩

def Token.liesIn (t : Token) (span : Span) : Bool := span.start ≤ t.start && t.stop ≤ span.stop

/-- Tokens one behind the other, none of them empty. -/
structure Placed (ts : List Token) : Prop where
  apart : ts.Pairwise fun t u => t.stop ≤ u.start
  filled : ∀ t ∈ ts, t.start < t.stop

/-- The tokens of a text before its end are placed so. -/
theorem placed_lex (file : Nat) (content : String) : Placed (lex file content).1.dropLast := by
  have hpairs := pairwise_lex file content
  rw [lex_tokens, List.pairwise_append] at hpairs
  rw [lex_tokens, List.dropLast_concat]
  exact ⟨hpairs.1.imp fun h => h.stop,
    fun t ht => (hpairs.2.2 t ht _ (List.mem_singleton_self _)).filled⟩

theorem placed_append {ts us : List Token} :
    Placed (ts ++ us) ↔ Placed ts ∧ Placed us ∧ ∀ t ∈ ts, ∀ u ∈ us, t.stop ≤ u.start := by
  constructor
  · rintro ⟨hapart, hfilled⟩
    obtain ⟨hts, hus, hacross⟩ := List.pairwise_append.mp hapart
    obtain ⟨hfilled, hfilled'⟩ := List.forall_mem_append.mp hfilled
    exact ⟨⟨hts, hfilled⟩, ⟨hus, hfilled'⟩, hacross⟩
  · rintro ⟨hts, hus, hacross⟩
    exact ⟨List.pairwise_append.mpr ⟨hts.apart, hus.apart, hacross⟩,
      List.forall_mem_append.mpr ⟨hts.filled, hus.filled⟩⟩

namespace Span.Over

variable {file : Nat} {span : Span} {ts : List Token} {t : Token}

theorem ne_nil (h : span.Over file ts) : ts ≠ [] := by
  obtain ⟨_, _, hfirst, -⟩ := h
  rintro rfl
  cases hfirst

theorem file_eq (h : span.Over file ts) : span.file = file := by
  obtain ⟨_, _, -, -, rfl⟩ := h
  rfl

/-- Whatever holds of the place of all tokens holds of both ends of the span. -/
theorem ends (h : span.Over file ts) :
    ∃ first ∈ ts, ∃ last ∈ ts, span.start = first.start ∧ span.stop = last.stop := by
  obtain ⟨first, last, hfirst, hlast, rfl⟩ := h
  exact ⟨first, List.mem_of_mem_head? hfirst, last, List.mem_of_getLast? hlast, rfl, rfl⟩

theorem liesIn (h : span.Over file ts) (hplaced : Placed ts) (ht : t ∈ ts) :
    t.liesIn span = true := by
  obtain ⟨first, last, hfirst, hlast, rfl⟩ := h
  have hfront : first.start ≤ t.start := by
    obtain ⟨us, rfl⟩ := List.head?_eq_some_iff.mp hfirst
    rcases List.mem_cons.mp ht with rfl | ht
    · exact Nat.le_refl _
    · have hstop := (List.pairwise_cons.mp hplaced.apart).1 t ht
      have hfilled := hplaced.filled first List.mem_cons_self
      omega
  have hback : t.stop ≤ last.stop := by
    obtain ⟨us, rfl⟩ := List.getLast?_eq_some_iff.mp hlast
    rcases List.mem_append.mp ht with hus | hus
    · have hstop := (placed_append.mp hplaced).2.2 t hus last (List.mem_singleton_self last)
      have hfilled := hplaced.filled last (List.mem_append_right us (List.mem_singleton_self last))
      omega
    · rw [List.mem_singleton.mp hus]
  simp [Token.liesIn, hfront, hback]

theorem filled (h : span.Over file ts) (hplaced : Placed ts) : span.start < span.stop := by
  obtain ⟨first, hfirst, last, hlast, hstart, hstop⟩ := h.ends
  have hinside := h.liesIn hplaced hfirst
  have hfilled := hplaced.filled first hfirst
  simp only [Token.liesIn, Bool.and_eq_true, decide_eq_true_eq] at hinside
  omega

end Span.Over

section Stretches

variable {α : Type} {span : α → Span} {file : Nat} {ss : List (Stretch α)}
  (hplaced : Placed (ss.flatMap Stretch.tokens))
  (hover : ∀ s ∈ ss, ∀ a ∈ s.value, (span a).Over file s.tokens)

include hplaced hover

/-- A token lies in the span of its own stretch and in no other. -/
theorem filter_liesIn {s : Stretch α} (hs : s ∈ ss) {t : Token} (ht : t ∈ s.tokens) :
    (ss.filterMap Stretch.value).filter (fun a => t.liesIn (span a)) = s.value.toList := by
  obtain ⟨pre, post, rfl⟩ := List.append_of_mem hs
  rw [List.flatMap_append, List.flatMap_cons] at hplaced
  obtain ⟨-, hrest, hpre⟩ := placed_append.mp hplaced
  obtain ⟨hown, -, hpost⟩ := placed_append.mp hrest
  have hfilled := hown.filled t ht
  have hbefore : (pre.filterMap Stretch.value).filter (fun a => t.liesIn (span a)) = [] := by
    rw [List.filter_eq_nil_iff]
    intro a ha
    obtain ⟨s', hs', hvalue⟩ := List.mem_filterMap.mp ha
    obtain ⟨_, _, last, hlast, _, hstop⟩ :=
      (hover s' (List.mem_append_left _ hs') a hvalue).ends
    have hless := hpre last (List.mem_flatMap.mpr ⟨s', hs', hlast⟩) t (List.mem_append_left _ ht)
    simp only [Token.liesIn, Bool.and_eq_true, decide_eq_true_eq, not_and]
    omega
  have hafter : (post.filterMap Stretch.value).filter (fun a => t.liesIn (span a)) = [] := by
    rw [List.filter_eq_nil_iff]
    intro a ha
    obtain ⟨s', hs', hvalue⟩ := List.mem_filterMap.mp ha
    obtain ⟨first, hfirst, _, _, hstart, _⟩ :=
      (hover s' (List.mem_append_right _ (List.mem_cons_of_mem _ hs')) a hvalue).ends
    have hless := hpost t ht first (List.mem_flatMap.mpr ⟨s', hs', hfirst⟩)
    simp only [Token.liesIn, Bool.and_eq_true, decide_eq_true_eq, not_and]
    omega
  rw [List.filterMap_append, List.filter_append, hbefore, List.nil_append, List.filterMap_cons]
  cases hvalue : s.value with
  | none => exact hafter
  | some a =>
    have hinside := (hover s hs a hvalue).liesIn hown ht
    simp only [List.filter_cons, hinside, if_true, hafter, Option.toList_some]

theorem filled_of_over : ∀ a ∈ ss.filterMap Stretch.value, (span a).start < (span a).stop := by
  intro a ha
  obtain ⟨s, hs, hvalue⟩ := List.mem_filterMap.mp ha
  obtain ⟨pre, post, rfl⟩ := List.append_of_mem hs
  rw [List.flatMap_append, List.flatMap_cons] at hplaced
  exact (hover s hs a hvalue).filled (placed_append.mp (placed_append.mp hplaced).2.1).1

theorem pairwise_of_over :
    (ss.filterMap Stretch.value).Pairwise fun a b => (span a).stop ≤ (span b).start := by
  rw [List.pairwise_filterMap]
  induction ss with
  | nil => exact .nil
  | cons s ss ih =>
    obtain ⟨hfirst, hrest⟩ := List.forall_mem_cons.mp hover
    rw [List.flatMap_cons] at hplaced
    obtain ⟨-, hlater, hacross⟩ := placed_append.mp hplaced
    refine List.pairwise_cons.mpr ⟨fun s' hs' a ha b hb => ?_, ih hlater hrest⟩
    obtain ⟨_, _, last, hlast, _, hstop⟩ := (hfirst a ha).ends
    obtain ⟨first, hmem, _, _, hstart, _⟩ := (hrest s' hs' b hb).ends
    rw [hstop, hstart]
    exact hacross last hlast first (List.mem_flatMap.mpr ⟨s', hs', hmem⟩)

end Stretches

end Netlist
