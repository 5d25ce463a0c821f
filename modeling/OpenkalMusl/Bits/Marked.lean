import Mathlib.Data.BitVec

/-!
# A count with a mark

A word of thirty-two bits that holds a count in its low bits and a mark in the highest one. Adding
one and subtracting one, as long as the count stays within its bits, leave the mark as it is.

## Main definitions

* `low w`: the count; `mark`, `lowest`: the mark and the bits of the count

## Main results

* `low_add_one`, `low_sub_one`: the count moves by one, and the mark stays
* `low_unmark`, `low_mark`: the mark is taken off or put on, and the count stays
-/

namespace Marked

/-- The bit of the mark. -/
def mark : BitVec 32 := 0x80000000

/-- The bits of the count. -/
def bits : BitVec 32 := 0x7fffffff

/-- The count. -/
def low (w : BitVec 32) : ℕ := (w &&& bits).toNat

theorem low_eq (w : BitVec 32) : low w = w.toNat % 2 ^ 31 := by
  have hbits : bits.toNat = 2 ^ 31 - 1 := rfl
  rw [low, BitVec.toNat_and, hbits, Nat.and_two_pow_sub_one_eq_mod]

theorem msb_eq (w : BitVec 32) : w.msb = decide (2 ^ 31 ≤ w.toNat) := BitVec.msb_eq_decide w

theorem low_lt (w : BitVec 32) : low w < 2 ^ 31 := by
  rw [low_eq]
  exact Nat.mod_lt _ (by decide)

theorem toNat_eq (w : BitVec 32) : w.toNat = low w + if w.msb then 2 ^ 31 else 0 := by
  have hlt := w.isLt
  rw [low_eq, msb_eq]
  by_cases h : 2 ^ 31 ≤ w.toNat
  · rw [if_pos (by simpa using h)]
    omega
  · rw [if_neg (by simpa using h)]
    omega

/-- A word is its count and its mark. -/
theorem ext {v w : BitVec 32} (hlow : low v = low w) (hmark : v.msb = w.msb) : v = w := by
  apply BitVec.eq_of_toNat_eq
  rw [toNat_eq v, toNat_eq w, hlow, hmark]

theorem eq_zero_iff {w : BitVec 32} : w = 0 ↔ low w = 0 ∧ w.msb = false := by
  refine ⟨?_, fun h => ext (h.1.trans (by decide)) (h.2.trans (by decide))⟩
  rintro rfl
  decide

theorem and_bits_eq_zero {w : BitVec 32} : w &&& bits = 0 ↔ low w = 0 :=
  ⟨fun h => by rw [low, h]; rfl, fun h => BitVec.eq_of_toNat_eq h⟩

theorem and_bits_eq {w v : BitVec 32} : w &&& bits = v ↔ low w = v.toNat :=
  ⟨fun h => by rw [low, h], fun h => BitVec.eq_of_toNat_eq h⟩

section Step

variable {w : BitVec 32}

theorem low_add_one (h : low w < 2 ^ 31 - 1) :
    low (w + 1) = low w + 1 ∧ (w + 1).msb = w.msb := by
  have hlt := w.isLt
  have hadd : (w + 1).toNat = w.toNat + 1 := by
    rw [low_eq] at h
    rw [BitVec.toNat_add, show (1 : BitVec 32).toNat = 1 from rfl]
    exact Nat.mod_eq_of_lt (by omega)
  rw [low_eq] at h
  rw [low_eq, low_eq, msb_eq, msb_eq, hadd]
  exact ⟨by omega, by rw [decide_eq_decide]; omega⟩

theorem low_sub_one (h : low w ≠ 0) : low (w - 1) + 1 = low w ∧ (w - 1).msb = w.msb := by
  have hlt := w.isLt
  have hsub : (w - 1).toNat = w.toNat - 1 := by
    rw [low_eq] at h
    rw [BitVec.toNat_sub, show (1 : BitVec 32).toNat = 1 from rfl]
    omega
  rw [low_eq] at h
  rw [low_eq, low_eq, msb_eq, msb_eq, hsub]
  exact ⟨by omega, by rw [decide_eq_decide]; omega⟩

/-- The mark is taken off. -/
theorem low_unmark : low (w &&& ~~~mark) = low w ∧ (w &&& ~~~mark).msb = false := by
  refine ⟨?_, ?_⟩
  · rw [low, low, BitVec.and_assoc, show ~~~mark &&& bits = bits by decide]
  · rw [BitVec.msb_and, show (~~~mark).msb = false by decide, Bool.and_false]

/-- The mark is put on. -/
theorem low_mark : low (w ||| mark) = low w ∧ (w ||| mark).msb = true := by
  refine ⟨?_, ?_⟩
  · rw [low, low, BitVec.and_or_distrib_right, show mark &&& bits = 0#32 by decide, BitVec.or_zero]
  · rw [BitVec.msb_or, show mark.msb = true by decide, Bool.or_true]

end Step

end Marked
