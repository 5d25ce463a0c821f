import Mathlib.Data.Nat.ModEq
import Mathlib.Tactic.NormNum

/-!
# The System V hash of a name

The hash of a symbol's name is defined over 32-bit words. A byte is added to the sum shifted by four
bits, and the four upper bits are folded into the lower ones and cleared; the clearing names them by
a mask of 32 bits. In a wider word the lower half goes the same way, and whatever is carried out of
it stays above and is shifted on.

## Main definitions

* `hashStep`, `symbolHash`: the hash, over words of any width
* `carriedDigits`: what the 32-bit sums carry out, a hexadecimal digit for each byte

## Main results

* `hashStep_append`: one byte in a wider word
* `toNat_symbolHash_wide`: the hash in a wider word is the 32-bit one and what it carried
-/

namespace OpenkalMusl

/-- One byte of a name. -/
def hashStep {w : ℕ} (h : BitVec w) (c : UInt8) : BitVec w :=
  let h := h <<< 4 + BitVec.ofNat w c.toNat
  let g := h &&& 0xf0000000#w
  let h := if g = 0#w then h else h ^^^ (g >>> 24)
  h &&& ~~~g

/-- The hash of a name, in words of `w` bits. -/
def symbolHash (w : ℕ) (name : List UInt8) : BitVec w := name.foldl hashStep 0#w

/-- What adding a byte to a 32-bit sum carries out of it. -/
def carryOut (h : BitVec 32) (c : UInt8) : ℕ := (h.toNat * 16 + c.toNat) / 2 ^ 32

/-- The digits that the bytes of a name carry out of their 32-bit sums, of which a word of `v` bits
above the sum keeps the last. -/
def carriedFrom (v : ℕ) : ℕ → BitVec 32 → List UInt8 → ℕ
  | n, _, [] => n
  | n, h, c :: cs => carriedFrom v ((n * 16 + carryOut h c) % 2 ^ v) (hashStep h c) cs

/-- What the sums of a name carry out into the upper half of a word of 64 bits. -/
def carriedDigits (name : List UInt8) : ℕ := carriedFrom 32 0 0#32 name

section Wide

variable {v : ℕ}

theorem toNat_append_eq (hi : BitVec v) (lo : BitVec 32) :
    (hi ++ lo).toNat = 2 ^ 32 * hi.toNat + lo.toNat := by
  rw [BitVec.toNat_append, ← Nat.shiftLeft_add_eq_or_of_lt lo.isLt, Nat.shiftLeft_eq, Nat.mul_comm]

/-- The sum of a wider word: the lower half's, and what it carries above. -/
theorem append_shiftLeft_add (hi : BitVec v) (lo : BitVec 32) (c : UInt8) :
    (hi ++ lo) <<< 4 + BitVec.ofNat (v + 32) c.toNat =
      BitVec.ofNat v (hi.toNat * 16 + carryOut lo c) ++
        (lo <<< 4 + BitVec.ofNat 32 c.toNat) := by
  refine BitVec.eq_of_toNat_eq ?_
  have hlo : (lo <<< 4 + BitVec.ofNat 32 c.toNat).toNat =
      (lo.toNat * 16 + c.toNat) % 2 ^ 32 := by
    simp [BitVec.toNat_add, BitVec.toNat_shiftLeft, Nat.shiftLeft_eq]
  have hsum : ((hi ++ lo) <<< 4 + BitVec.ofNat (v + 32) c.toNat).toNat =
      ((2 ^ 32 * hi.toNat + lo.toNat) * 16 + c.toNat) % (2 ^ v * 2 ^ 32) := by
    rw [BitVec.toNat_add, BitVec.toNat_shiftLeft, toNat_append_eq, BitVec.toNat_ofNat,
      Nat.shiftLeft_eq, ← Nat.add_mod, pow_add]
  -- the sum of the halves, the lower one taken apart at bit 32
  have hsplit : (2 ^ 32 * hi.toNat + lo.toNat) * 16 + c.toNat =
      2 ^ 32 * (hi.toNat * 16 + carryOut lo c) + (lo.toNat * 16 + c.toNat) % 2 ^ 32 := by
    unfold carryOut
    have := Nat.div_add_mod (lo.toNat * 16 + c.toNat) (2 ^ 32)
    omega
  rw [hsum, toNat_append_eq, hlo, BitVec.toNat_ofNat, hsplit]
  rw [Nat.mul_comm (2 ^ v), Nat.mod_mul, Nat.mul_add_mod, Nat.mod_mod,
    Nat.mul_add_div (by norm_num), Nat.div_eq_of_lt (Nat.mod_lt _ (by norm_num)), Nat.add_zero,
    Nat.add_comm]

/-- The mask of the upper four bits has none above. -/
theorem mask_append : 0xf0000000#(v + 32) = 0#v ++ 0xf0000000#32 := by
  refine BitVec.eq_of_toNat_eq ?_
  rw [toNat_append_eq, BitVec.toNat_ofNat, BitVec.toNat_ofNat, BitVec.toNat_ofNat, Nat.zero_mod,
    Nat.mul_zero, Nat.zero_add, Nat.mod_eq_of_lt (a := 0xf0000000) (b := 2 ^ 32) (by norm_num)]
  refine Nat.mod_eq_of_lt (lt_of_lt_of_le (show 0xf0000000 < 2 ^ 32 by norm_num) ?_)
  exact Nat.pow_le_pow_right (by norm_num) (by omega)

theorem zero_append_ushiftRight (lo : BitVec 32) :
    (0#v ++ lo) >>> 24 = 0#v ++ (lo >>> 24) := by
  refine BitVec.eq_of_toNat_eq ?_
  simp

theorem zero_append_eq_zero_iff (lo : BitVec 32) : 0#v ++ lo = 0#(v + 32) ↔ lo = 0#32 := by
  rw [← BitVec.toNat_inj, ← BitVec.toNat_inj, toNat_append_eq]
  simp

/-- **One byte in a wider word**: the lower half goes as the 32-bit sum does. -/
theorem hashStep_append (hi : BitVec v) (lo : BitVec 32) (c : UInt8) :
    hashStep (hi ++ lo) c =
      BitVec.ofNat v (hi.toNat * 16 + carryOut lo c) ++ hashStep lo c := by
  unfold hashStep
  simp only [append_shiftLeft_add]
  rw [mask_append (v := v)]
  simp only [BitVec.and_append, BitVec.and_zero, zero_append_eq_zero_iff]
  split_ifs with hg
  · simp only [BitVec.not_append, BitVec.and_append, BitVec.not_zero, BitVec.and_allOnes]
  · simp only [zero_append_ushiftRight, BitVec.xor_append, BitVec.xor_zero, BitVec.not_append,
      BitVec.and_append, BitVec.not_zero, BitVec.and_allOnes]

theorem foldl_hashStep_append (name : List UInt8) (hi : BitVec v) (lo : BitVec 32) :
    name.foldl hashStep (hi ++ lo) =
      BitVec.ofNat v (carriedFrom v hi.toNat lo name) ++ name.foldl hashStep lo := by
  induction name generalizing hi lo with
  | nil => simp [carriedFrom]
  | cons c cs ih =>
    rw [List.foldl_cons, List.foldl_cons, hashStep_append, ih, BitVec.toNat_ofNat]
    rfl

theorem carriedFrom_lt (name : List UInt8) {n : ℕ} (hn : n < 2 ^ v) (h : BitVec 32) :
    carriedFrom v n h name < 2 ^ v := by
  induction name generalizing n h with
  | nil => exact hn
  | cons c cs ih => exact ih (Nat.mod_lt _ (Nat.two_pow_pos v)) _

end Wide

/-- **The hash in a word of 64 bits** is the 32-bit one, and above it what the sums carried. -/
theorem toNat_symbolHash_wide (name : List UInt8) :
    (symbolHash 64 name).toNat = 2 ^ 32 * carriedDigits name + (symbolHash 32 name).toNat := by
  have hsplit : symbolHash 64 name =
      BitVec.ofNat 32 (carriedDigits name) ++ symbolHash 32 name :=
    foldl_hashStep_append name 0#32 0#32
  have hlt : carriedDigits name < 2 ^ 32 := carriedFrom_lt name (Nat.two_pow_pos 32) 0#32
  rw [hsplit, toNat_append_eq, BitVec.toNat_ofNat, Nat.mod_eq_of_lt hlt]

/-- The two hashes choose one of `n` buckets alike exactly where `n` divides what was carried. -/
theorem symbolHash_mod_eq_iff (name : List UInt8) (n : ℕ) :
    (symbolHash 64 name).toNat % n = (symbolHash 32 name).toNat % n ↔
      n ∣ 2 ^ 32 * carriedDigits name := by
  rw [toNat_symbolHash_wide, eq_comm]
  exact (Nat.modEq_iff_dvd' (Nat.le_add_left _ _)).trans (by rw [Nat.add_sub_cancel])

example : symbolHash 32 [0x68, 0x78, 0x78, 0x78, 0x78, 0x72, 0x7a, 0x7a] = 0x0000001a#32 := by
  decide

end OpenkalMusl
