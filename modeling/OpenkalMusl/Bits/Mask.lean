import Mathlib.Data.BitVec

/-!
# Words as sets of positions

The arithmetic on words by which a set of positions is kept in one: the lowest position is
`x &&& -x`, it is taken out by a subtraction, and a position that is not in the set is put in by an
addition. Each is stated by its positions.

## Main definitions

* `lowest`: the lowest position, as a word
* `bit`, `through`: one position, and the positions up to one

## Main results

* `getLsbD_sub_of_subset`, `getLsbD_sub_lowest`: what the subtraction takes out
* `getLsbD_add_bit`: what the addition puts in
-/

namespace Mask

variable {w : ℕ}

/-- The lowest position of a word. -/
def lowest (x : BitVec w) : BitVec w := x &&& -x

/-- The word of one position. -/
def bit (w i : ℕ) : BitVec w := 1#w <<< i

/-- The word of the positions up to `i`. -/
def through (w i : ℕ) : BitVec w := (2#w <<< i) - 1#w

theorem bit_eq_twoPow (i : ℕ) : bit w i = BitVec.twoPow w i := rfl

theorem getLsbD_bit (i j : ℕ) : (bit w i).getLsbD j = (decide (i < w) && decide (i = j)) := by
  rw [bit_eq_twoPow, BitVec.getLsbD_twoPow]

theorem through_eq_twoPow (i : ℕ) : through w i = BitVec.twoPow w (i + 1) - 1#w := by
  have htwo : 2#w <<< i = BitVec.twoPow w (i + 1) := by
    apply BitVec.eq_of_toNat_eq
    rw [BitVec.toNat_shiftLeft, BitVec.toNat_twoPow, BitVec.toNat_ofNat, Nat.shiftLeft_eq,
      Nat.mod_mul_mod, pow_succ']
  rw [through, htwo]

/-- The positions up to `i`, as far as the word has them. -/
theorem getLsbD_through (i j : ℕ) :
    (through w i).getLsbD j = (decide (j < w) && decide (j ≤ i)) := by
  rw [through_eq_twoPow]
  by_cases hi : i + 1 < w
  · have hpow : 2 ^ (i + 1) < 2 ^ w := Nat.pow_lt_pow_right (by decide) hi
    have hone : 1 < 2 ^ w := Nat.one_lt_two_pow (by omega)
    have hnat : (BitVec.twoPow w (i + 1) - 1#w).toNat = 2 ^ (i + 1) - 1 := by
      have hpos : 0 < 2 ^ (i + 1) := Nat.two_pow_pos _
      rw [BitVec.toNat_sub, BitVec.toNat_twoPow, BitVec.toNat_ofNat, Nat.mod_eq_of_lt hpow,
        Nat.mod_eq_of_lt hone]
      rw [show 2 ^ w - 1 + 2 ^ (i + 1) = (2 ^ (i + 1) - 1) + 2 ^ w by omega, Nat.add_mod_right]
      exact Nat.mod_eq_of_lt (by omega)
    rw [BitVec.getLsbD, hnat, Nat.testBit_two_pow_sub_one]
    by_cases hj : j ≤ i
    · simp [hj, Nat.lt_succ_of_le hj, show j < w by omega]
    · simp [hj, show ¬ j < i + 1 by omega]
  · -- the shift leaves nothing, and the subtraction wraps to every position
    have hzero : BitVec.twoPow w (i + 1) = 0#w := by
      apply BitVec.eq_of_toNat_eq
      rw [BitVec.toNat_twoPow, BitVec.toNat_zero]
      exact Nat.mod_eq_zero_of_dvd (Nat.pow_dvd_pow 2 (by omega))
    rw [hzero, BitVec.zero_sub, BitVec.neg_one_eq_allOnes, BitVec.getLsbD_allOnes]
    by_cases hj : j < w
    · simp [hj, show j ≤ i by omega]
    · simp [hj]

section Lowest

variable {x : BitVec w}

theorem getLsbD_lowest (j : ℕ) :
    (lowest x).getLsbD j = (x.getLsbD j && !decide (∃ k < j, x.getLsbD k = true)) := by
  rw [lowest, BitVec.getLsbD_and, BitVec.getLsbD_neg]
  by_cases hj : j < w
  · cases x.getLsbD j <;> simp [hj]
  · simp [BitVec.getLsbD_of_ge x j (by omega)]

/-- The lowest position is where the trailing zeros end. -/
theorem lowest_eq (hx : x ≠ 0#w) : lowest x = bit w x.ctz.toNat := by
  have hset := BitVec.getLsbD_true_ctz_of_ne_zero hx
  have hlt : x.ctz.toNat < w := BitVec.lt_of_getLsbD hset
  apply BitVec.eq_of_getLsbD_eq
  intro j _
  rw [getLsbD_lowest, getLsbD_bit]
  rcases Nat.lt_trichotomy j x.ctz.toNat with hj | rfl | hj
  · rw [BitVec.getLsbD_false_of_lt_ctz hj]
    simp [show x.ctz.toNat ≠ j by omega]
  · have hnone : ¬ ∃ k < x.ctz.toNat, x.getLsbD k = true := by
      rintro ⟨k, hk, hset⟩
      rw [BitVec.getLsbD_false_of_lt_ctz hk] at hset
      cases hset
    simp [hset, hnone, hlt]
  · have hsome : ∃ k < j, x.getLsbD k = true := ⟨_, hj, hset⟩
    simp [hsome, show x.ctz.toNat ≠ j by omega]

theorem lowest_eq_zero_iff : lowest x = 0#w ↔ x = 0#w := by
  constructor
  · intro h
    by_contra hx
    have hset := BitVec.getLsbD_true_ctz_of_ne_zero hx
    have hbit := getLsbD_bit (w := w) x.ctz.toNat x.ctz.toNat
    rw [← lowest_eq hx, h] at hbit
    simp [BitVec.lt_of_getLsbD hset] at hbit
  · rintro rfl
    simp [lowest]

/-- The lowest position is where the lowest position is. -/
theorem ctz_lowest (hx : x ≠ 0#w) : (lowest x).ctz = x.ctz := by
  have hne : lowest x ≠ 0#w := fun h => hx (lowest_eq_zero_iff.mp h)
  have hset := BitVec.getLsbD_true_ctz_of_ne_zero hne
  rw [lowest_eq hx, getLsbD_bit, ← lowest_eq hx] at hset
  simp only [Bool.and_eq_true, decide_eq_true_eq] at hset
  exact BitVec.eq_of_toNat_eq hset.2.symm

end Lowest

/-- **A position that is not in the set is put in.** -/
theorem getLsbD_add_bit {x : BitVec w} {i : ℕ} (hi : i < w) (hx : x.getLsbD i = false) (j : ℕ) :
    (x + bit w i).getLsbD j = (x.getLsbD j || decide (j = i)) := by
  have hand : x &&& bit w i = 0#w := by
    apply BitVec.eq_of_getLsbD_eq
    intro k _
    rw [BitVec.getLsbD_and, getLsbD_bit]
    by_cases hk : i = k
    · subst hk
      simp [hx]
    · simp [hk]
  rw [BitVec.add_eq_or_of_and_eq_zero _ _ hand, BitVec.getLsbD_or, getLsbD_bit]
  simp [hi, eq_comm]

theorem getLsbD_or_bit {x : BitVec w} {i : ℕ} (hi : i < w) (j : ℕ) :
    (x ||| bit w i).getLsbD j = (x.getLsbD j || decide (j = i)) := by
  rw [BitVec.getLsbD_or, getLsbD_bit]
  simp [hi, eq_comm]

/-- **Positions of the set are taken out.** -/
theorem getLsbD_sub_of_subset {x y : BitVec w} (h : ∀ j, y.getLsbD j = true → x.getLsbD j = true)
    (j : ℕ) : (x - y).getLsbD j = (x.getLsbD j && !y.getLsbD j) := by
  have hand : (x &&& ~~~y) &&& y = 0#w := by
    apply BitVec.eq_of_getLsbD_eq
    intro k hk
    simp [hk]
  -- what is left, and what is taken out, make the word
  have hrest : (x &&& ~~~y) + y = x := by
    rw [BitVec.add_eq_or_of_and_eq_zero _ _ hand]
    apply BitVec.eq_of_getLsbD_eq
    intro k hk
    rw [BitVec.getLsbD_or, BitVec.getLsbD_and, BitVec.getLsbD_not]
    cases hy : y.getLsbD k with
    | false => simp [hk]
    | true => simp [h k hy]
  have hsub : x - y = x &&& ~~~y := by
    nth_rewrite 1 [← hrest]
    exact BitVec.add_sub_cancel ..
  rw [hsub, BitVec.getLsbD_and, BitVec.getLsbD_not]
  by_cases hj : j < w
  · simp [hj]
  · simp [BitVec.getLsbD_of_ge x j (by omega)]

/-- **The lowest position is taken out.** -/
theorem getLsbD_sub_lowest {x : BitVec w} (hx : x ≠ 0#w) (j : ℕ) :
    (x - lowest x).getLsbD j = (x.getLsbD j && decide (j ≠ x.ctz.toNat)) := by
  have hset := BitVec.getLsbD_true_ctz_of_ne_zero hx
  rw [getLsbD_sub_of_subset fun k hk => ?_, lowest_eq hx, getLsbD_bit]
  · simp [BitVec.lt_of_getLsbD hset, eq_comm]
  · rw [getLsbD_lowest] at hk
    exact (Bool.and_eq_true_iff.mp hk).1

end Mask
