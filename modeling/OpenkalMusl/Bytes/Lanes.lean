import OpenkalMusl.Bytes.Program

/-!
# Vectors of bytes and the masks that read them

A vector is compared lane by lane, and a comparison answers with all ones in the lanes where it
holds and zero in the others. A mask narrows such an answer to a register, a few bits for a lane, so
that the first lane that answers is found by counting trailing zeros. What a mask must do is a field
of `Narrowing`, so that what is proved of one is proved of each.

## Main definitions

* `Vec.same`, `Vec.least`, `Vec.both`, `Vec.either`: operations lane by lane
* `Vec.Tells`: the lanes answer a question
* `Narrowing`, `Narrowing.first`, `Narrowing.Marks`: masks, and the first lane of one

## Main results

* `Narrowing.Marks.first_spec`, `Narrowing.Marks.none_of_zero`: what a mask says
* `Narrowing.Marks.shift`: a mask with its first lanes shifted out
-/

namespace Bytes

namespace Vec

variable {w : ℕ} {a b v v' : Vec w} {P P' : ℕ → Prop}

def splat (w : ℕ) (c : UInt8) : Vec w := fun _ => c

/-- All ones in the lanes where two vectors agree. -/
def same (a b : Vec w) : Vec w := fun i => if a i = b i then 255 else 0

/-- The smaller of each pair of lanes, unsigned. -/
def least (a b : Vec w) : Vec w := fun i => if a i ≤ b i then a i else b i

def both (a b : Vec w) : Vec w := fun i => a i &&& b i

def either (a b : Vec w) : Vec w := fun i => a i ||| b i

def differing (a b : Vec w) : Vec w := fun i => a i ^^^ b i

/-- The lanes answer a question: all ones where it holds, zero where it does not. -/
def Tells (v : Vec w) (P : ℕ → Prop) : Prop := ∀ i : Fin w, (P i → v i = 255) ∧ (¬P i → v i = 0)

theorem tells_same (h : ∀ i : Fin w, a i = b i ↔ P i) : Tells (same a b) P := by
  intro i
  constructor
  · intro hp
    rw [same, if_pos ((h i).mpr hp)]
  · intro hp
    rw [same, if_neg (fun heq => hp ((h i).mp heq))]

theorem Tells.both (h : Tells v P) (h' : Tells v' P') :
    Tells (both v v') (fun i => P i ∧ P' i) := by
  intro i
  constructor
  · rintro ⟨hp, hp'⟩
    rw [Vec.both, (h i).1 hp, (h' i).1 hp']
    rfl
  · intro hn
    by_cases hp : P i
    · have hp' : ¬P' i := fun hp' => hn ⟨hp, hp'⟩
      rw [Vec.both, (h' i).2 hp', UInt8.and_zero]
    · rw [Vec.both, (h i).2 hp, UInt8.zero_and]

theorem Tells.either (h : Tells v P) (h' : Tells v' P') :
    Tells (either v v') (fun i => P i ∨ P' i) := by
  intro i
  constructor
  · intro hor
    by_cases hp : P i
    · by_cases hp' : P' i
      · rw [Vec.either, (h i).1 hp, (h' i).1 hp']
        rfl
      · rw [Vec.either, (h i).1 hp, (h' i).2 hp', UInt8.or_zero]
    · have hp' : P' i := hor.resolve_left hp
      rw [Vec.either, (h i).2 hp, (h' i).1 hp', UInt8.zero_or]
  · intro hn
    have hp : ¬P i := fun hp => hn (Or.inl hp)
    have hp' : ¬P' i := fun hp' => hn (Or.inr hp')
    rw [Vec.either, (h i).2 hp, (h' i).2 hp', UInt8.or_zero]

/-- A lane of the smaller is zero where either is. -/
theorem least_eq_zero {i : Fin w} : least a b i = 0 ↔ a i = 0 ∨ b i = 0 := by
  have hzero : ∀ x y : UInt8, x ≤ y → y = 0 → x = 0 := by
    intro x y hxy hy
    rw [hy] at hxy
    exact UInt8.le_zero_iff.mp hxy
  by_cases hle : a i ≤ b i
  · rw [least, if_pos hle]
    constructor
    · exact Or.inl
    · rintro (h | h)
      · exact h
      · exact hzero _ _ hle h
  · rw [least, if_neg hle]
    have hge : b i ≤ a i := (UInt8.le_total (a i) (b i)).resolve_left hle
    constructor
    · exact Or.inr
    · rintro (h | h)
      · exact hzero _ _ hge h
      · exact h

/-- Four vectors reduced to one: a lane is zero where it is zero in any. -/
theorem least_four_eq_zero {a b c d : Vec w} {i : Fin w} :
    least (least a b) (least c d) i = 0 ↔ (a i = 0 ∨ b i = 0) ∨ (c i = 0 ∨ d i = 0) := by
  rw [least_eq_zero, least_eq_zero, least_eq_zero]

theorem differing_eq_zero {i : Fin w} : differing a b i = 0 ↔ a i = b i :=
  UInt8.xor_eq_zero_iff

end Vec

/-- A mask of a vector whose lanes are all ones or zero: a few bits of a register for a lane. -/
structure Narrowing where
  width : ℕ
  bits : ℕ
  register : ℕ
  mask : Vec width → BitVec register
  bits_pos : 0 < bits
  fits : bits * width ≤ register
  mask_iff : ∀ {v : Vec width} {P : ℕ → Prop}, Vec.Tells v P →
    ∀ k, (mask v).getLsbD k = true ↔ k < bits * width ∧ P (k / bits)

namespace Narrowing

variable {N : Narrowing} {P P' : ℕ → Prop}

/-- The first lane of a mask. -/
def first (N : Narrowing) (m : BitVec N.register) : ℕ := m.ctz.toNat / N.bits

/-- The mask of every lane. -/
def full (N : Narrowing) : BitVec N.register := BitVec.ofNat N.register (2 ^ (N.bits * N.width) - 1)

/-- The bits of the lanes at which `P` holds are set, and no others. -/
def Marks (N : Narrowing) (m : BitVec N.register) (P : ℕ → Prop) : Prop :=
  ∀ k, m.getLsbD k = true ↔ k < N.bits * N.width ∧ P (k / N.bits)

theorem marks_mask {v : Vec N.width} (h : v.Tells P) : N.Marks (N.mask v) P := N.mask_iff h

/-- The bit a lane begins with. -/
theorem lane_lt {j : ℕ} (hj : j < N.width) : j * N.bits < N.bits * N.width := by
  rw [Nat.mul_comm j]
  exact Nat.mul_lt_mul_of_pos_left hj N.bits_pos

namespace Marks

variable {m m' : BitVec N.register}

/-- A mask that is not zero: its first lane is one at which `P` holds, and none is before it. -/
theorem first_spec (h : N.Marks m P) (hm : m ≠ 0#N.register) :
    N.first m < N.width ∧ P (N.first m) ∧ ∀ j < N.first m, ¬P j := by
  obtain ⟨hlt, hP⟩ := (h _).mp (BitVec.getLsbD_true_ctz_of_ne_zero hm)
  have hfirst : N.first m < N.width := Nat.div_lt_of_lt_mul hlt
  refine ⟨hfirst, hP, ?_⟩
  intro j hj hPj
  have hbit : m.getLsbD (j * N.bits) = true := by
    refine (h _).mpr ⟨lane_lt (by omega), ?_⟩
    rw [Nat.mul_div_cancel j N.bits_pos]
    exact hPj
  have hbefore : j * N.bits < m.ctz.toNat := by
    have hmul := (Nat.lt_div_iff_mul_lt N.bits_pos).mp hj
    omega
  rw [BitVec.getLsbD_false_of_lt_ctz hbefore] at hbit
  cases hbit

/-- A mask that is zero marks no lane. -/
theorem none_of_zero (h : N.Marks 0#N.register P) {j : ℕ} (hj : j < N.width) : ¬P j := by
  intro hP
  have hbit : (0#N.register).getLsbD (j * N.bits) = true := by
    refine (h _).mpr ⟨lane_lt hj, ?_⟩
    rw [Nat.mul_div_cancel j N.bits_pos]
    exact hP
  rw [BitVec.getLsbD_zero] at hbit
  cases hbit

theorem getLsbD_full (k : ℕ) : N.full.getLsbD k = true ↔ k < N.bits * N.width := by
  have hfits := N.fits
  rw [full, BitVec.getLsbD_ofNat, Nat.testBit_two_pow_sub_one]
  simp only [Bool.and_eq_true, decide_eq_true_eq]
  omega

/-- The mask of every lane marks them all. -/
theorem all_of_full (h : N.Marks N.full P) {j : ℕ} (hj : j < N.width) : P j := by
  have hbit := ((h (j * N.bits)).mp ((getLsbD_full _).mpr (lane_lt hj))).2
  rw [Nat.mul_div_cancel j N.bits_pos] at hbit
  exact hbit

/-- The lanes that are not marked. -/
theorem compl (h : N.Marks m P) : N.Marks (N.full &&& ~~~m) (fun j => ¬P j) := by
  intro k
  have hfits := N.fits
  rw [BitVec.getLsbD_and, BitVec.getLsbD_not, Bool.and_eq_true, Bool.and_eq_true, getLsbD_full,
    decide_eq_true_eq, Bool.not_eq_true', ← Bool.not_eq_true, h k]
  constructor
  · rintro ⟨hk, -, hn⟩
    exact ⟨hk, fun hP => hn ⟨hk, hP⟩⟩
  · rintro ⟨hk, hP⟩
    exact ⟨hk, by omega, fun hn => hP hn.2⟩

/-- The lanes that are not marked in one mask or are in another. -/
theorem compl_or (h : N.Marks m P) (h' : N.Marks m' P') :
    N.Marks (N.full &&& (~~~m ||| m')) (fun j => ¬P j ∨ P' j) := by
  intro k
  have hfits := N.fits
  rw [BitVec.getLsbD_and, BitVec.getLsbD_or, BitVec.getLsbD_not, Bool.and_eq_true,
    Bool.or_eq_true, Bool.and_eq_true, getLsbD_full, decide_eq_true_eq, Bool.not_eq_true',
    ← Bool.not_eq_true, h k, h' k]
  constructor
  · rintro ⟨hk, ⟨-, hn⟩ | ⟨-, hP⟩⟩
    · exact ⟨hk, Or.inl fun hP => hn ⟨hk, hP⟩⟩
    · exact ⟨hk, Or.inr hP⟩
  · rintro ⟨hk, hP | hP⟩
    · exact ⟨hk, Or.inl ⟨by omega, fun hn => hP hn.2⟩⟩
    · exact ⟨hk, Or.inr ⟨hk, hP⟩⟩

/-- The first `off` lanes shifted out. -/
theorem shift (h : N.Marks m P) (off : ℕ) :
    N.Marks (m >>> (off * N.bits)) (fun j => off + j < N.width ∧ P (off + j)) := by
  intro k
  have hlane : (off * N.bits + k) / N.bits = off + k / N.bits := by
    rw [Nat.mul_comm, Nat.mul_add_div N.bits_pos]
  have hlt : off * N.bits + k < N.bits * N.width ↔ off + k / N.bits < N.width := by
    rw [← hlane, Nat.div_lt_iff_lt_mul N.bits_pos, Nat.mul_comm N.width]
  rw [BitVec.getLsbD_ushiftRight, h, hlane, hlt]
  constructor
  · rintro ⟨hk, hP⟩
    refine ⟨?_, hk, hP⟩
    have := hlt.mpr hk
    omega
  · rintro ⟨-, hk, hP⟩
    exact ⟨hk, hP⟩

end Marks

end Narrowing

end Bytes
