import Netlist.Lowering.Number
import Netlist.Lowering.StringValue
import Mathlib.Data.List.Induction
import Mathlib.Data.Nat.Digits.Defs
import Mathlib.Tactic.IntervalCases

/-!
Numerals. The number that digits stand for is said here by their places in the row of digits. The
two readers of digits, one for numbers and one for codes in strings, agree with it.
-/
namespace Netlist

/-- The digits, each at the place of its value. -/
def digitRow : List Char := "0123456789abcdef".toList

/-- The number that digits stand for, the last one counting least. -/
def numeral (base : Nat) (ds : List Char) : Nat :=
  Nat.ofDigits base (ds.reverse.map fun d => digitRow.idxOf d.toLower)

theorem numeral_concat (base : Nat) (ds : List Char) (d : Char) :
    numeral base (ds ++ [d]) = numeral base ds * base + digitRow.idxOf d.toLower := by
  rw [numeral, List.reverse_concat, List.map_cons, Nat.ofDigits_cons, numeral]
  rw [Nat.add_comm, Nat.mul_comm]

/-- Reading digits from the front gives their number. -/
theorem foldl_eq_numeral {base : Nat} {value : Char → Nat} {ds : List Char}
    (h : ∀ d ∈ ds, value d = digitRow.idxOf d.toLower) :
    ds.foldl (fun n d => n * base + value d) 0 = numeral base ds := by
  induction ds using List.reverseRecOn with
  | nil => rfl
  | append_singleton ds d ih =>
    have hlast := h d (List.mem_append_right ds (List.mem_singleton_self d))
    have hinit := ih fun e he => h e (List.mem_append_left [d] he)
    rw [List.foldl_append, hinit, List.foldl_cons, List.foldl_nil, hlast, numeral_concat]

/-- The digits of either case. -/
def digitSigns : List Char := "0123456789abcdefABCDEF".toList

/-- What holds of all characters with codes in a range holds of each one there. -/
theorem of_toNat_range (p : Char → Prop) {first last : Nat} {c : Char}
    (hall : ∀ n, first ≤ n → n ≤ last → p (Char.ofNat n)) (hfirst : first ≤ c.toNat)
    (hlast : c.toNat ≤ last) : p c := by
  have hp := hall c.toNat hfirst hlast
  rwa [Char.ofNat_toNat] at hp

theorem mem_digitSigns_of_isDigit {c : Char} (h : c.isDigit = true) : c ∈ digitSigns := by
  simp only [Char.isDigit, Bool.and_eq_true, decide_eq_true_eq] at h
  have hfirst : 48 ≤ c.toNat := UInt32.le_iff_toNat_le.mp h.1
  have hlast : c.toNat ≤ 57 := UInt32.le_iff_toNat_le.mp h.2
  refine of_toNat_range (· ∈ digitSigns) (fun n hn hn' => ?_) hfirst hlast
  interval_cases n <;> decide

theorem mem_digitSigns_of_isHexDigit {c : Char} (h : Piece.isHexDigit c = true) :
    c ∈ digitSigns := by
  by_cases hupper : 65 ≤ c.toNat ∧ c.toNat ≤ 90
  · revert h
    refine of_toNat_range (fun c => Piece.isHexDigit c = true → c ∈ digitSigns)
      (fun n hn hn' => ?_) hupper.1 hupper.2
    interval_cases n <;> decide
  · have hlower : c.toLower = c := by
      unfold Char.toLower
      refine dif_neg fun hle => hupper ⟨?_, ?_⟩
      · exact UInt32.le_iff_toNat_le.mp hle.1
      · exact UInt32.le_iff_toNat_le.mp hle.2
    simp only [Piece.isHexDigit, Bool.or_eq_true, Bool.and_eq_true, decide_eq_true_eq,
      hlower] at h
    rcases h with h | h
    · exact mem_digitSigns_of_isDigit h
    · have hfirst : 97 ≤ c.toNat := UInt32.le_iff_toNat_le.mp h.1
      have hlast : c.toNat ≤ 102 := UInt32.le_iff_toNat_le.mp h.2
      refine of_toNat_range (· ∈ digitSigns) (fun n hn hn' => ?_) hfirst hlast
      interval_cases n <;> decide

theorem isHexDigit_of_isOctalDigit {c : Char} (h : Lowering.isOctalDigit c = true) :
    Piece.isHexDigit c = true := by
  simp only [Lowering.isOctalDigit, Bool.and_eq_true, decide_eq_true_eq] at h
  have hfirst : 48 ≤ c.toNat := UInt32.le_iff_toNat_le.mp h.1
  have hlast : c.toNat ≤ 55 := UInt32.le_iff_toNat_le.mp h.2
  refine of_toNat_range (Piece.isHexDigit · = true) (fun n hn hn' => ?_) hfirst hlast
  interval_cases n <;> decide

theorem digitsValue_eq {ds : List Char} (base : Nat)
    (h : ∀ d ∈ ds, Piece.isHexDigit d = true) :
    Lowering.digitsValue base ds = numeral base ds := by
  have hall : digitSigns.all (fun c => Lowering.digitValue c = digitRow.idxOf c.toLower) = true := by
    decide
  refine foldl_eq_numeral fun d hd => ?_
  simpa using List.all_eq_true.mp hall d (mem_digitSigns_of_isHexDigit (h d hd))

theorem decimalValue_eq {ds : List Char}
    (h : ∀ d ∈ Lowering.withoutSeparators ds, d.isDigit = true) :
    Piece.decimalValue ds = numeral 10 (Lowering.withoutSeparators ds) := by
  have hall : digitSigns.all
      (fun c => !c.isDigit || c.toNat - 48 = digitRow.idxOf c.toLower) = true := by decide
  refine foldl_eq_numeral fun d hd => ?_
  simpa [h d hd] using List.all_eq_true.mp hall d (mem_digitSigns_of_isDigit (h d hd))

end Netlist
