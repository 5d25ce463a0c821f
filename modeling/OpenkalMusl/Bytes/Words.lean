import OpenkalMusl.Bytes.Program

/-!
# Words of several bytes

A word is read from memory with the byte of the lowest address in its lowest bits. Two words differ
first in the byte that holds the lowest bit of their exclusive or. The word
`(x - ones) & ~x & highs` is not zero exactly when a byte of `x` is; above the first zero byte it
may be set where no byte is zero, since the subtraction borrows there, but its lowest bit is that of
the first zero byte.

## Main definitions

* `little`: the word of a few bytes
* `repunit`, `ones`, `highs`, `hasZero`: the arithmetic that finds a zero byte

## Main results

* `first_difference`: the first byte in which two words differ
* `hasZero_eq_zero_iff`, `first_zero`: the first zero byte of a word
-/

namespace Bytes

variable {k : ℕ}

/-- The number that a few bytes hold, the first the least significant. -/
def littleNat : {k : ℕ} → Vec k → ℕ
  | 0, _ => 0
  | _ + 1, v => (v 0).toNat + 256 * littleNat (fun i => v i.succ)

/-- The word that a few bytes hold. -/
def little (v : Vec k) : BitVec (8 * k) := BitVec.ofNat (8 * k) (littleNat v)

theorem pow_eight_succ (k : ℕ) : 2 ^ (8 * (k + 1)) = 256 * 2 ^ (8 * k) := by
  rw [Nat.mul_add, Nat.pow_add, Nat.mul_comm]

theorem littleNat_lt : {k : ℕ} → (v : Vec k) → littleNat v < 2 ^ (8 * k)
  | 0, _ => Nat.zero_lt_one
  | k + 1, v => by
    have hbyte := (v 0).toNat_lt
    have hrest := littleNat_lt (fun i => v i.succ)
    rw [littleNat, pow_eight_succ]
    omega

theorem toNat_little (v : Vec k) : (little v).toNat = littleNat v := by
  rw [little, BitVec.toNat_ofNat, Nat.mod_eq_of_lt (littleNat_lt v)]

theorem testBit_littleNat_succ (v : Vec (k + 1)) (j : ℕ) :
    (littleNat v).testBit j =
      if j < 8 then (v 0).toNat.testBit j else (littleNat (fun i => v i.succ)).testBit (j - 8) := by
  have hadd : littleNat v = 2 ^ 8 * littleNat (fun i => v i.succ) + (v 0).toNat := by
    rw [littleNat, Nat.add_comm]
    rfl
  rw [hadd, Nat.testBit_two_pow_mul_add _ (v 0).toNat_lt]

/-- A bit of the word is a bit of one of its bytes. -/
theorem testBit_littleNat (v : Vec k) (i : Fin k) {r : ℕ} (hr : r < 8) :
    (littleNat v).testBit (8 * i + r) = (v i).toNat.testBit r := by
  induction k with
  | zero => exact i.elim0
  | succ k ih =>
    rw [testBit_littleNat_succ]
    cases i using Fin.cases with
    | zero =>
      rw [if_pos (by simpa using hr)]
      simp
    | succ i =>
      have hsub : 8 * (i.succ : ℕ) + r - 8 = 8 * i + r := by
        rw [Fin.val_succ]
        omega
      rw [if_neg (by rw [Fin.val_succ]; omega), hsub]
      exact ih (fun i => v i.succ) i

theorem getLsbD_little (v : Vec k) (i : Fin k) {r : ℕ} (hr : r < 8) :
    (little v).getLsbD (8 * i + r) = (v i).toNat.testBit r := by
  rw [BitVec.getLsbD, toNat_little, testBit_littleNat v i hr]

/-- Bytes with the same eight bits are the same. -/
theorem byte_eq_of_testBit {a b : UInt8} (h : ∀ r < 8, a.toNat.testBit r = b.toNat.testBit r) :
    a = b := by
  apply UInt8.toNat_inj.mp
  apply Nat.eq_of_testBit_eq
  intro r
  by_cases hr : r < 8
  · exact h r hr
  · have hpow : 2 ^ 8 ≤ 2 ^ r := Nat.pow_le_pow_right (by decide) (by omega)
    rw [Nat.testBit_lt_two_pow (Nat.lt_of_lt_of_le a.toNat_lt hpow),
      Nat.testBit_lt_two_pow (Nat.lt_of_lt_of_le b.toNat_lt hpow)]

/-- Words that are the same hold the same bytes. -/
theorem little_inj {a b : Vec k} (h : little a = little b) (i : Fin k) : a i = b i := by
  apply byte_eq_of_testBit
  intro r hr
  rw [← getLsbD_little a i hr, ← getLsbD_little b i hr, h]

/-- The byte of the lowest bit in which two words differ is the first in which they differ. -/
theorem first_difference {a b : Vec k} (h : little a ≠ little b) :
    ∃ i : Fin k, (little a ^^^ little b).ctz.toNat / 8 = i ∧ a i ≠ b i ∧ ∀ j < i, a j = b j := by
  have hne : little a ^^^ little b ≠ 0#(8 * k) := fun hzero => h (BitVec.xor_eq_zero_iff.mp hzero)
  have hbit := BitVec.getLsbD_true_ctz_of_ne_zero hne
  have hlt := BitVec.lt_of_getLsbD hbit
  generalize hc : (little a ^^^ little b).ctz.toNat = c at hbit hlt
  have hi : c / 8 < k := by omega
  refine ⟨⟨c / 8, hi⟩, rfl, ?_, ?_⟩
  · intro heq
    have hsplit : c = 8 * (⟨c / 8, hi⟩ : Fin k).val + c % 8 := (Nat.div_add_mod c 8).symm
    rw [hsplit, BitVec.getLsbD_xor, getLsbD_little _ _ (Nat.mod_lt c (by decide)),
      getLsbD_little _ _ (Nat.mod_lt c (by decide)), heq, Bool.xor_self] at hbit
    cases hbit
  · intro j hj
    apply byte_eq_of_testBit
    intro r hr
    have hjlt : j.val < c / 8 := hj
    have hfalse : (little a ^^^ little b).getLsbD (8 * j + r) = false :=
      BitVec.getLsbD_false_of_lt_ctz (by rw [hc]; omega)
    rw [BitVec.getLsbD_xor, getLsbD_little _ _ hr, getLsbD_little _ _ hr] at hfalse
    simpa using hfalse

/-- The word of the bits below `n`. -/
theorem getLsbD_low {w n : ℕ} (hn : n < w) (j : ℕ) :
    ((1#w <<< n) - 1#w).getLsbD j = decide (j < n) := by
  have hone : (1#w).toNat = 1 := by
    rw [BitVec.toNat_ofNat, Nat.mod_eq_of_lt (Nat.one_lt_two_pow (by omega))]
  have hshift : (1#w <<< n).toNat = 2 ^ n := by
    rw [BitVec.toNat_shiftLeft, hone, Nat.one_shiftLeft,
      Nat.mod_eq_of_lt (Nat.pow_lt_pow_right (by decide) hn)]
  have hle : 1#w ≤ 1#w <<< n := by
    rw [BitVec.le_def, hone, hshift]
    exact Nat.one_le_two_pow
  rw [BitVec.getLsbD, BitVec.toNat_sub_of_le hle, hshift, hone, Nat.testBit_two_pow_sub_one]

/-- The first bytes of a word set to all ones. -/
theorem little_or_low (v : Vec k) {off : ℕ} (hoff : off < k) :
    little v ||| ((1#(8 * k) <<< (8 * off)) - 1#(8 * k)) =
      little (fun i => if i.val < off then 255 else v i) := by
  apply BitVec.eq_of_getLsbD_eq
  intro j hj
  have hmod : j % 8 < 8 := Nat.mod_lt j (by decide)
  have hsplit : j = 8 * (⟨j / 8, by omega⟩ : Fin k).val + j % 8 := (Nat.div_add_mod j 8).symm
  have hones : ∀ r < 8, (255 : UInt8).toNat.testBit r = true := by decide
  rw [BitVec.getLsbD_or, getLsbD_low (by omega)]
  generalize (⟨j / 8, by omega⟩ : Fin k) = i at hsplit
  rw [hsplit, getLsbD_little v i hmod, getLsbD_little _ i hmod]
  by_cases hi : i.val < off
  · rw [if_pos hi, hones _ hmod, decide_eq_true (by omega), Bool.or_true]
  · rw [if_neg hi, decide_eq_false (by omega), Bool.or_false]

/-! ## Zero bytes -/

/-- The number whose `k` bytes are all one. -/
def repunit : ℕ → ℕ
  | 0 => 0
  | k + 1 => 1 + 256 * repunit k

/-- The word whose bytes are all one. -/
def ones (n : ℕ) : BitVec n := BitVec.allOnes n / 255#n

/-- The word of the highest bit of every byte. -/
def highs (n : ℕ) : BitVec n := ones n * 128#n

/-- Not zero exactly when a byte of the word is. -/
def hasZero {n : ℕ} (x : BitVec n) : BitVec n := (x - ones n) &&& ~~~x &&& highs n

theorem mul_repunit_byte {b : ℕ} (hb : b < 256) {j k : ℕ} (hj : j < k) :
    b * repunit k / 256 ^ j % 256 = b := by
  induction j generalizing k with
  | zero =>
    obtain ⟨k, rfl⟩ : ∃ k', k = k' + 1 := ⟨k - 1, by omega⟩
    rw [repunit, Nat.mul_add, Nat.mul_left_comm]
    omega
  | succ j ih =>
    obtain ⟨k, rfl⟩ : ∃ k', k = k' + 1 := ⟨k - 1, by omega⟩
    have hdiv : b * repunit (k + 1) / 256 = b * repunit k := by
      rw [repunit, Nat.mul_add, Nat.mul_left_comm]
      omega
    rw [Nat.pow_succ', ← Nat.div_div_eq_div_mul, hdiv]
    exact ih (by omega)

theorem repunit_mul (k : ℕ) : 255 * repunit k + 1 = 2 ^ (8 * k) := by
  induction k with
  | zero => rfl
  | succ k ih =>
    rw [repunit, pow_eight_succ, ← ih]
    omega

theorem toNat_ones (hk : 0 < k) : (ones (8 * k)).toNat = repunit k := by
  have hunit := repunit_mul k
  have hpow : 2 ^ 8 ≤ 2 ^ (8 * k) := Nat.pow_le_pow_right (by decide) (by omega)
  rw [ones, BitVec.toNat_udiv, BitVec.toNat_allOnes, BitVec.toNat_ofNat,
    Nat.mod_eq_of_lt (by omega)]
  omega

theorem toNat_highs (hk : 0 < k) : (highs (8 * k)).toNat = 128 * repunit k := by
  have hunit := repunit_mul k
  have hpow : 2 ^ 8 ≤ 2 ^ (8 * k) := Nat.pow_le_pow_right (by decide) (by omega)
  have hbit : 128 % 2 ^ (8 * k) = 128 := Nat.mod_eq_of_lt (by omega)
  rw [highs, BitVec.toNat_mul, toNat_ones hk, BitVec.toNat_ofNat, hbit,
    Nat.mod_eq_of_lt (by omega), Nat.mul_comm]

theorem testBit_highs (k j : ℕ) :
    (128 * repunit k).testBit j = true ↔ j % 8 = 7 ∧ j < 8 * k := by
  induction k generalizing j with
  | zero => simp [repunit]
  | succ k ih =>
    have hadd : 128 * repunit (k + 1) = 2 ^ 8 * (128 * repunit k) + 2 ^ 7 := by
      rw [repunit]
      omega
    rw [hadd, Nat.testBit_two_pow_mul_add _ (by decide)]
    by_cases hj : j < 8
    · rw [if_pos hj, Nat.testBit_two_pow, decide_eq_true_eq]
      omega
    · rw [if_neg hj, ih]
      omega

/-- What is left of the bytes when one is taken from each. -/
def lessOnes (v : Vec k) : ℕ := (2 ^ (8 * k) - repunit k + littleNat v) % 2 ^ (8 * k)

/-- A bit of the word that finds a zero byte. -/
def ZeroBit (v : Vec k) (j : ℕ) : Prop :=
  (lessOnes v).testBit j = true ∧ (littleNat v).testBit j = false ∧ j % 8 = 7 ∧ j < 8 * k

theorem getLsbD_hasZero (hk : 0 < k) (v : Vec k) (j : ℕ) :
    (hasZero (little v)).getLsbD j = true ↔ ZeroBit v j := by
  rw [hasZero, BitVec.getLsbD_and, BitVec.getLsbD_and, BitVec.getLsbD_not, BitVec.getLsbD,
    BitVec.toNat_sub, toNat_ones hk, toNat_little, BitVec.getLsbD, toNat_little, BitVec.getLsbD,
    toNat_highs hk, Bool.and_eq_true, Bool.and_eq_true, Bool.and_eq_true, testBit_highs,
    decide_eq_true_eq, Bool.not_eq_true']
  constructor
  · rintro ⟨⟨hsub, -, hbit⟩, hmod, hlt⟩
    exact ⟨hsub, hbit, hmod, hlt⟩
  · rintro ⟨hsub, hbit, hmod, hlt⟩
    exact ⟨⟨hsub, hlt, hbit⟩, hmod, hlt⟩

/-- The low byte of a number and the rest, through a remainder by a power of two. -/
theorem add_mul_mod_pow {b : ℕ} (hb : b < 256) (y k : ℕ) :
    (b + 256 * y) % 2 ^ (8 * (k + 1)) = 2 ^ 8 * (y % 2 ^ (8 * k)) + b := by
  have hlow : (b + 256 * y) % 256 = b := by omega
  have hrest : (b + 256 * y) / 256 = y := by omega
  rw [pow_eight_succ, Nat.mod_mul, hlow, hrest]
  omega

/-- The bit of the first byte, and those of the bytes that follow it. -/
theorem testBit_lessOnes_of_lt {v : Vec (k + 1)} {b y : ℕ} (hb : b < 256)
    (h : 2 ^ (8 * (k + 1)) - repunit (k + 1) + littleNat v = b + 256 * y) (j : ℕ) :
    (lessOnes v).testBit j = if j < 8 then b.testBit j else (y % 2 ^ (8 * k)).testBit (j - 8) := by
  rw [lessOnes, h, add_mul_mod_pow hb, Nat.testBit_two_pow_mul_add _ hb]

theorem testBit_seven {b : ℕ} (hb : b < 256) : b.testBit 7 = true ↔ 128 ≤ b := by
  rw [Nat.testBit_eq_decide_div_mod_eq, decide_eq_true_eq]
  omega

/-- Above a byte that is not zero, the bits are those of the bytes that follow it. -/
theorem zeroBit_succ_of_ne {v : Vec (k + 1)} (hv : v 0 ≠ 0) (j : ℕ) :
    ZeroBit v j ↔ 8 ≤ j ∧ ZeroBit (fun i => v i.succ) (j - 8) := by
  have hbyte : (v 0).toNat < 256 := (v 0).toNat_lt
  have hpos : 0 < (v 0).toNat := Nat.pos_of_ne_zero (fun h => hv (UInt8.toNat_inj.mp h))
  have hunit := repunit_mul k
  -- the subtraction takes one from the first byte and borrows nothing from the others
  have hsum : 2 ^ (8 * (k + 1)) - repunit (k + 1) + littleNat v =
      (v 0).toNat - 1 + 256 * (2 ^ (8 * k) - repunit k + littleNat (fun i => v i.succ)) := by
    rw [littleNat, repunit, pow_eight_succ]
    omega
  have hless := testBit_lessOnes_of_lt (by omega) hsum j
  have hbits := testBit_littleNat_succ v j
  by_cases hj : j < 8
  · rw [if_pos hj] at hless hbits
    constructor
    · rintro ⟨hset, hclear, hmod, -⟩
      obtain rfl : j = 7 := by omega
      rw [hless, testBit_seven (by omega)] at hset
      rw [hbits, ← Bool.not_eq_true, testBit_seven hbyte] at hclear
      omega
    · rintro ⟨hge, -⟩
      omega
  · rw [if_neg hj] at hless hbits
    rw [ZeroBit, hless, hbits, ZeroBit]
    change _ ↔ 8 ≤ j ∧ (_ % 2 ^ (8 * k)).testBit (j - 8) = true ∧ _
    constructor
    · rintro ⟨hset, hclear, hmod, hlt⟩
      exact ⟨by omega, hset, hclear, by omega, by omega⟩
    · rintro ⟨hge, hset, hclear, hmod, hlt⟩
      exact ⟨hset, hclear, by omega, by omega⟩

/-- The first bit of a word whose first byte is zero is the highest of that byte. -/
theorem zeroBit_of_eq {v : Vec (k + 1)} (hv : v 0 = 0) :
    ZeroBit v 7 ∧ ∀ j < 7, ¬ZeroBit v j := by
  have hunit := repunit_mul k
  have hzero : (v 0).toNat = 0 := by rw [hv]; rfl
  have hsum : 2 ^ (8 * (k + 1)) - repunit (k + 1) + littleNat v =
      255 + 256 * (2 ^ (8 * k) - repunit k - 1 + littleNat (fun i => v i.succ)) := by
    have hlt : repunit k < 2 ^ (8 * k) := by omega
    rw [littleNat, repunit, pow_eight_succ]
    omega
  refine ⟨⟨?_, ?_, rfl, by omega⟩, ?_⟩
  · rw [testBit_lessOnes_of_lt (by omega) hsum, if_pos (by omega)]
    rfl
  · rw [testBit_littleNat_succ, if_pos (by omega), hzero, Nat.zero_testBit]
  · rintro j hj ⟨-, -, hmod, -⟩
    omega

/-- The bits that find a zero byte: none where no byte is zero, and else the first is the highest
bit of the first zero byte. -/
theorem zeroBit_cases : {k : ℕ} → (v : Vec k) →
    ((∀ i, v i ≠ 0) ∧ ∀ j, ¬ZeroBit v j) ∨
      ∃ i : Fin k, v i = 0 ∧ (∀ i' < i, v i' ≠ 0) ∧ ZeroBit v (8 * i + 7) ∧
        ∀ j < 8 * i.val + 7, ¬ZeroBit v j
  | 0, v => by
    left
    refine ⟨fun i => i.elim0, ?_⟩
    rintro j ⟨-, -, -, hlt⟩
    omega
  | k + 1, v => by
    by_cases hv : v 0 = 0
    · right
      obtain ⟨hset, hbefore⟩ := zeroBit_of_eq hv
      refine ⟨0, hv, ?_, hset, hbefore⟩
      intro i' hi'
      exact absurd hi' (Fin.not_lt_zero i')
    · rcases zeroBit_cases (fun i => v i.succ) with ⟨hall, hnone⟩ | ⟨i, hi, hlt, hset, hbefore⟩
      · left
        constructor
        · intro i
          cases i using Fin.cases with
          | zero => exact hv
          | succ i => exact hall i
        · intro j hj
          exact hnone _ ((zeroBit_succ_of_ne hv j).mp hj).2
      · right
        refine ⟨i.succ, hi, ?_, ?_, ?_⟩
        · intro i' hi'
          cases i' using Fin.cases with
          | zero => exact hv
          | succ i' => exact hlt i' (Fin.succ_lt_succ_iff.mp hi')
        · rw [zeroBit_succ_of_ne hv, Fin.val_succ]
          refine ⟨by omega, ?_⟩
          have hsub : 8 * (i.val + 1) + 7 - 8 = 8 * i + 7 := by omega
          rw [hsub]
          exact hset
        · intro j hj hbit
          rw [Fin.val_succ] at hj
          obtain ⟨hge, hbit⟩ := (zeroBit_succ_of_ne hv j).mp hbit
          exact hbefore (j - 8) (by omega) hbit

/-- The word that finds a zero byte is zero exactly when no byte is. -/
theorem hasZero_eq_zero_iff (hk : 0 < k) (v : Vec k) :
    hasZero (little v) = 0#(8 * k) ↔ ∀ i, v i ≠ 0 := by
  rcases zeroBit_cases v with ⟨hall, hnone⟩ | ⟨i, hi, -, hset, -⟩
  · refine ⟨fun _ => hall, fun _ => ?_⟩
    apply BitVec.eq_of_getLsbD_eq
    intro j _
    rw [BitVec.getLsbD_zero, ← Bool.not_eq_true, getLsbD_hasZero hk]
    exact hnone j
  · constructor
    · intro hzero
      rw [← getLsbD_hasZero hk, hzero, BitVec.getLsbD_zero] at hset
      cases hset
    · intro hall
      exact absurd hi (hall i)

/-- The byte of the lowest bit of the word that finds a zero byte is the first that is zero. -/
theorem first_zero (hk : 0 < k) {v : Vec k} (h : hasZero (little v) ≠ 0#(8 * k)) :
    ∃ i : Fin k, (hasZero (little v)).ctz.toNat / 8 = i ∧ v i = 0 ∧ ∀ j < i, v j ≠ 0 := by
  rcases zeroBit_cases v with ⟨hall, -⟩ | ⟨i, hi, hlt, hset, hbefore⟩
  · exact absurd ((hasZero_eq_zero_iff hk v).mpr hall) h
  · refine ⟨i, ?_, hi, hlt⟩
    have hbit := (getLsbD_hasZero hk v _).mp (BitVec.getLsbD_true_ctz_of_ne_zero h)
    have hge : 8 * i.val + 7 ≤ (hasZero (little v)).ctz.toNat := by
      by_contra hcon
      exact hbefore _ (by omega) hbit
    have hle : (hasZero (little v)).ctz.toNat ≤ 8 * i.val + 7 := by
      by_contra hcon
      have hfalse := BitVec.getLsbD_false_of_lt_ctz (Nat.lt_of_not_le hcon)
      rw [(getLsbD_hasZero hk v _).mpr hset] at hfalse
      cases hfalse
    omega

end Bytes
