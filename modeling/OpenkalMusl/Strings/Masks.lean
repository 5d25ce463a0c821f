import OpenkalMusl.Bytes.Lanes
import OpenkalMusl.Bytes.Words
import OpenkalMusl.Strings.Plain

/-!
# The masks of the vector functions

`mask16` and `mask32`: one bit for a byte on x86_64, the highest of each, and four on AArch64, where
the pairs of bytes are shifted right by four and narrowed. `AT16` counts trailing zeros and divides
by the bits of a lane, and `FULL16` is the mask of every lane; with these what the functions do with
a mask does not depend on which it is.

## Main definitions

* `Strings.sse2`, `Strings.neon`, `Strings.avx2`: the three masks
-/

namespace OpenkalMusl.Strings

open Bytes

/-- The highest bit of each byte. -/
def pmovmskb {w : ℕ} (v : Vec w) : BitVec 32 :=
  (BitVec.ofBoolListLE (List.ofFn fun i => decide (128 ≤ (v i).toNat))).setWidth 32

/-- The pairs of bytes shifted right by four, each narrowed to a byte. -/
def narrowed (v : Vec 16) : Vec 8 := fun i =>
  UInt8.ofNat (((v (Fin.ofNat 16 (2 * i.val))).toNat +
    256 * (v (Fin.ofNat 16 (2 * i.val + 1))).toNat) / 16 % 256)

theorem pmovmskb_iff {w : ℕ} (hw : w ≤ 32) {v : Vec w} {P : ℕ → Prop} (h : v.Tells P) (k : ℕ) :
    (pmovmskb v).getLsbD k = true ↔ k < 1 * w ∧ P (k / 1) := by
  rw [pmovmskb, BitVec.getLsbD_setWidth, BitVec.getLsbD_ofBoolListLE, Nat.one_mul, Nat.div_one]
  by_cases hk : k < w
  · have hget : (List.ofFn fun i => decide (128 ≤ (v i).toNat)).getD k false =
        decide (128 ≤ (v ⟨k, hk⟩).toNat) := by
      simp [List.getD, hk]
    rw [hget, Bool.and_eq_true, decide_eq_true_eq, decide_eq_true_eq]
    by_cases hP : P k
    · have hlane : (v ⟨k, hk⟩).toNat = 255 := by rw [(h ⟨k, hk⟩).1 hP]; rfl
      rw [hlane]
      exact ⟨fun _ => ⟨hk, hP⟩, fun _ => ⟨by omega, by decide⟩⟩
    · have hlane : (v ⟨k, hk⟩).toNat = 0 := by rw [(h ⟨k, hk⟩).2 hP]; rfl
      rw [hlane]
      exact ⟨fun hbit => absurd hbit.2 (by decide), fun hbit => absurd hbit.2 hP⟩
  · have hget : (List.ofFn fun i => decide (128 ≤ (v i).toNat)).getD k false = false := by
      simp [List.getD, hk]
    rw [hget, Bool.and_false]
    exact ⟨fun hbit => (Bool.false_ne_true hbit).elim, fun hbit => absurd hbit.1 hk⟩

/-- The bits of a narrowed pair: four for each of its bytes. -/
theorem narrowed_testBit {v : Vec 16} {P : ℕ → Prop} (h : v.Tells P) (i : Fin 8) {r : ℕ}
    (hr : r < 8) : (narrowed v i).toNat.testBit r = true ↔ P (2 * i + r / 4) := by
  have hlow : (Fin.ofNat 16 (2 * i.val)).val = 2 * i := Nat.mod_eq_of_lt (by omega)
  have hhigh : (Fin.ofNat 16 (2 * i.val + 1)).val = 2 * i + 1 := Nat.mod_eq_of_lt (by omega)
  have hlane := h (Fin.ofNat 16 (2 * i.val))
  have hlane' := h (Fin.ofNat 16 (2 * i.val + 1))
  rw [hlow] at hlane
  rw [hhigh] at hlane'
  -- which half of the byte the bit lies in says which byte of the pair it tells of
  have hhalf : r / 4 = 0 ∧ r < 4 ∨ r / 4 = 1 ∧ 4 ≤ r := by omega
  have hbits : ∀ r < 8, (255).testBit r = true ∧ ((15).testBit r = true ↔ r < 4) ∧
      ((240).testBit r = true ↔ 4 ≤ r) ∧ (0).testBit r = false := by decide
  obtain ⟨hb255, hb15, hb240, hb0⟩ := hbits r hr
  rw [narrowed]
  by_cases hP : P (2 * i.val) <;> by_cases hP' : P (2 * i.val + 1)
  · rw [hlane.1 hP, hlane'.1 hP']
    change (255).testBit r = true ↔ _
    rcases hhalf with ⟨hd, -⟩ | ⟨hd, -⟩ <;> rw [hd] <;> simp [hb255, hP, hP']
  · rw [hlane.1 hP, hlane'.2 hP']
    change (15).testBit r = true ↔ _
    rcases hhalf with ⟨hd, hlt⟩ | ⟨hd, hge⟩ <;> rw [hd, hb15] <;> simp [hP, hP'] <;> omega
  · rw [hlane.2 hP, hlane'.1 hP']
    change (240).testBit r = true ↔ _
    rcases hhalf with ⟨hd, hlt⟩ | ⟨hd, hge⟩ <;> rw [hd, hb240] <;> simp [hP, hP'] <;> omega
  · rw [hlane.2 hP, hlane'.2 hP']
    change (0).testBit r = true ↔ _
    rcases hhalf with ⟨hd, -⟩ | ⟨hd, -⟩ <;> rw [hd, hb0] <;> simp [hP, hP']

theorem neon_iff {v : Vec 16} {P : ℕ → Prop} (h : v.Tells P) (k : ℕ) :
    (little (narrowed v)).getLsbD k = true ↔ k < 4 * 16 ∧ P (k / 4) := by
  by_cases hk : k < 64
  · have hsplit : k = 8 * (⟨k / 8, by omega⟩ : Fin 8).val + k % 8 := (Nat.div_add_mod k 8).symm
    have hlane : 2 * (k / 8) + k % 8 / 4 = k / 4 := by omega
    rw [hsplit, getLsbD_little _ _ (Nat.mod_lt k (by decide)),
      narrowed_testBit h _ (Nat.mod_lt k (by decide)), ← hsplit]
    dsimp only
    rw [hlane]
    exact ⟨fun hP => ⟨hk, hP⟩, fun hP => hP.2⟩
  · constructor
    · intro hbit
      exact absurd (BitVec.lt_of_getLsbD hbit) hk
    · rintro ⟨hlt, -⟩
      exact absurd hlt hk

def sse2 : Narrowing where
  width := 16
  bits := 1
  register := 32
  mask := pmovmskb
  bits_pos := Nat.one_pos
  fits := Nat.le_of_ble_eq_true rfl
  mask_iff h := pmovmskb_iff (Nat.le_of_ble_eq_true rfl) h

def neon : Narrowing where
  width := 16
  bits := 4
  register := 8 * 8
  mask v := little (narrowed v)
  bits_pos := Nat.succ_pos 3
  fits := Nat.le_refl 64
  mask_iff h := neon_iff h

def avx2 : Narrowing where
  width := 32
  bits := 1
  register := 32
  mask := pmovmskb
  bits_pos := Nat.one_pos
  fits := Nat.le_refl 32
  mask_iff h := pmovmskb_iff (Nat.le_refl 32) h

end OpenkalMusl.Strings
