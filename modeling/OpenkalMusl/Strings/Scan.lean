import OpenkalMusl.Strings.Masks

/-!
# The aligned search

`scan16` and `scan32` of `okm_string.c`: the first byte at or after an address and below another
that is the one looked for, or the terminator where that stops the search as well. Vectors are read
at multiples of their size, and four of them at multiples of four. The first such vector holds bytes
before the start, whose lanes are shifted out of the mask; the last holds bytes past the end, and an
address found there is discarded.

A search a byte at a time reads up to the first byte that stops it. An aligned block lies in one
page, and it is loaded only when its first byte at or after the start is one of those: so the search
stays within the pages that hold a byte so read.

## Main definitions

* `Strings.scan`: the search
* `Strings.Reads`, `Strings.PagesRead`: what a search a byte at a time reads, and the pages of that
* `Strings.FirstIn`: what a search is to return

## Main results

* `Strings.scan_does`: what the search returns, and the pages it loads from
-/

namespace OpenkalMusl.Strings

open Bytes Bytes.Program

/-! ## The search -/

/-- `UINTPTR_MAX`. -/
def uintptrMax : ℕ := 2 ^ 64 - 1

/-- `t16` and `t32`: a vector's lanes as zero where the search stops, at `c` and with `nul` also at
the terminator. -/
def stopLanes {w : ℕ} (c : UInt8) (nul : Bool) (x : Vec w) : Vec w :=
  if nul then Vec.least (Vec.differing x (Vec.splat w c)) x else Vec.differing x (Vec.splat w c)

/-- `STOP16` and `STOP32`. -/
def zeroMask (N : Narrowing) (t : Vec N.width) : BitVec N.register :=
  N.mask (Vec.same t (Vec.splat N.width 0))

/-- `FOUND16` and `FOUND32`: an address is discarded at the end and beyond it. -/
def below (finish q : ℕ) : Option ℕ := if q < finish then some q else none

/-- Of four vectors known to hold a zero lane, the first that does, and where in the block. -/
def blockFirst (N : Narrowing) (t0 t1 t2 t3 : Vec N.width) : ℕ :=
  if zeroMask N t0 ≠ 0#N.register then N.first (zeroMask N t0)
  else if zeroMask N t1 ≠ 0#N.register then N.width + N.first (zeroMask N t1)
  else if zeroMask N t2 ≠ 0#N.register then 2 * N.width + N.first (zeroMask N t2)
  else 3 * N.width + N.first (zeroMask N t3)

/-- The aligned loop of `scan16` and `scan32`, four vectors at a time. -/
def scanBlocks (N : Narrowing) (turns : ℕ) (c : UInt8) (nul : Bool) (finish : ℕ) :
    ℕ → Program (Option ℕ) :=
  let w := N.width
  loop (fun p => p < finish)
    (fun p next => do
      let x0 ← loadAligned w p
      let x1 ← loadAligned w (p + w)
      let x2 ← loadAligned w (p + 2 * w)
      let x3 ← loadAligned w (p + 3 * w)
      let t0 := stopLanes c nul x0
      let t1 := stopLanes c nul x1
      let t2 := stopLanes c nul x2
      let t3 := stopLanes c nul x3
      if zeroMask N (Vec.least (Vec.least t0 t1) (Vec.least t2 t3)) ≠ 0#N.register then
        pure (below finish (p + blockFirst N t0 t1 t2 t3))
      else next (p + 4 * w))
    (fun _ => pure none) turns

/-- `scan16` and `scan32`: the first byte from `s` on and below `finish` that stops the search. -/
def scan (N : Narrowing) (turns s : ℕ) (c : UInt8) (nul : Bool) (finish : ℕ) :
    Program (Option ℕ) := do
  let w := N.width
  let x ← loadAligned w (s - s % w)
  let mask := zeroMask N (stopLanes c nul x) >>> (s % w * N.bits)
  if mask ≠ 0#N.register then pure (below finish (s + N.first mask))
  else
    loop (fun p => p % (4 * w) ≠ 0)
      (fun p next =>
        if finish ≤ p then pure none
        else do
          let x ← loadAligned w p
          let mask := zeroMask N (stopLanes c nul x)
          if mask ≠ 0#N.register then pure (below finish (p + N.first mask)) else next (p + w))
      (scanBlocks N turns c nul finish) turns (s - s % w + w)

/-! ## What a search reads and returns -/

/-- No address from `b` to below `p` stops the search. -/
def ClearFrom (S : ℕ → Prop) (b p : ℕ) : Prop := ∀ a, b ≤ a → a < p → ¬S a

/-- The addresses that a search a byte at a time reads: up to the first that stops it. -/
def Reads (S : ℕ → Prop) (b finish p : ℕ) : Prop := b ≤ p ∧ p < finish ∧ ClearFrom S b p

/-- The loads that lie in the page of such an address. -/
def PagesRead (S : ℕ → Prop) (b finish : ℕ) (ld : Load) : Prop :=
  ∃ p, Reads S b finish p ∧ ∀ a, ld.Has a → a / pageMin = p / pageMin

/-- What a search is to return: the first address that stops it, and null where none does. -/
def FirstIn (S : ℕ → Prop) (b finish : ℕ) : Option ℕ → Prop
  | some q => Reads S b finish q ∧ S q
  | none => ClearFrom S b finish

/-- The search is done, and memory as it was. -/
def Searched (S : ℕ → Prop) (b finish : ℕ) (m : Memory) (v : Option ℕ) (m' : Memory) : Prop :=
  m' = m ∧ FirstIn S b finish v

/-- The bytes that stop a search for `c`, with `nul` also the terminator. -/
def StopsAt (m : Memory) (c : UInt8) (nul : Bool) (a : ℕ) : Prop := m a = c ∨ nul = true ∧ m a = 0

section Scan

variable {N : Narrowing} {m : Memory} {c : UInt8} {nul : Bool} {S : ℕ → Prop}
  {b s p q finish T turns : ℕ}

theorem ClearFrom.mono {p' : ℕ} (h : ClearFrom S b p) (hle : p' ≤ p) : ClearFrom S b p' :=
  fun a ha ha' => h a ha (by omega)

theorem ClearFrom.trans (h : ClearFrom S b p) (h' : ClearFrom S p q) : ClearFrom S b q := by
  intro a ha ha'
  by_cases hap : a < p
  · exact h a ha hap
  · exact h' a (by omega) ha'

theorem clearFrom_self : ClearFrom S b b := fun _ ha ha' => absurd ha (by omega)

theorem ClearFrom.le (h : ClearFrom S b p) (hb : b ≤ q) (hq : S q) : p ≤ q := by
  by_contra hcon
  exact h q hb (by omega) hq

/-- What the lanes of a vector say of the addresses it was loaded from. -/
theorem clearFrom_of_lanes {w : ℕ} (h : ∀ j < w, ¬S (p + j)) : ClearFrom S p (p + w) := by
  intro a ha ha'
  have hlane := h (a - p) (by omega)
  rwa [Nat.add_sub_cancel' ha] at hlane

theorem firstIn_below (hb : b ≤ q) (hq : S q) (hclear : ClearFrom S b q) :
    FirstIn S b finish (below finish q) := by
  rw [below]
  by_cases hlt : q < finish
  · rw [if_pos hlt]
    exact ⟨⟨hb, hlt, hclear⟩, hq⟩
  · rw [if_neg hlt]
    exact hclear.mono (by omega)

theorem stopLanes_eq_zero {w : ℕ} (m : Memory) (c : UInt8) (nul : Bool) (p : ℕ) (j : Fin w) :
    stopLanes c nul (m.vec w p) j = 0 ↔ StopsAt m c nul (p + j) := by
  cases nul with
  | false =>
    change Vec.differing _ _ j = 0 ↔ _
    rw [Vec.differing_eq_zero]
    simp [StopsAt, Vec.splat, Memory.vec]
  | true =>
    change Vec.least _ _ j = 0 ↔ _
    rw [Vec.least_eq_zero, Vec.differing_eq_zero]
    simp [StopsAt, Vec.splat, Memory.vec]

theorem marks_zeroMask {t : Vec N.width} {P : ℕ → Prop} (h : ∀ j : Fin N.width, t j = 0 ↔ P j) :
    N.Marks (zeroMask N t) P := N.marks_mask (Vec.tells_same h)

/-- The first of four vectors that holds a zero lane. -/
theorem blockFirst_spec {t0 t1 t2 t3 : Vec N.width} (h0 : ∀ j : Fin N.width, t0 j = 0 ↔ S (p + j))
    (h1 : ∀ j : Fin N.width, t1 j = 0 ↔ S (p + N.width + j))
    (h2 : ∀ j : Fin N.width, t2 j = 0 ↔ S (p + 2 * N.width + j))
    (h3 : ∀ j : Fin N.width, t3 j = 0 ↔ S (p + 3 * N.width + j)) :
    (zeroMask N (Vec.least (Vec.least t0 t1) (Vec.least t2 t3)) ≠ 0#N.register →
      S (p + blockFirst N t0 t1 t2 t3) ∧ ClearFrom S p (p + blockFirst N t0 t1 t2 t3)) ∧
    (zeroMask N (Vec.least (Vec.least t0 t1) (Vec.least t2 t3)) = 0#N.register →
      ClearFrom S p (p + 4 * N.width)) := by
  have hmask : N.Marks (zeroMask N (Vec.least (Vec.least t0 t1) (Vec.least t2 t3)))
      (fun j => (S (p + j) ∨ S (p + N.width + j)) ∨
        (S (p + 2 * N.width + j) ∨ S (p + 3 * N.width + j))) := by
    apply marks_zeroMask
    intro j
    rw [Vec.least_four_eq_zero, h0, h1, h2, h3]
  have hm0 := marks_zeroMask (N := N) (P := fun j => S (p + j)) h0
  have hm1 := marks_zeroMask (N := N) (P := fun j => S (p + N.width + j)) h1
  have hm2 := marks_zeroMask (N := N) (P := fun j => S (p + 2 * N.width + j)) h2
  have hm3 := marks_zeroMask (N := N) (P := fun j => S (p + 3 * N.width + j)) h3
  -- a vector whose mask is zero is clear
  have hpass : ∀ {t : Vec N.width} {q : ℕ}, N.Marks (zeroMask N t) (fun j => S (q + j)) →
      ¬zeroMask N t ≠ 0#N.register → ClearFrom S q (q + N.width) := by
    intro t q hmarks hzero
    rw [ne_eq, not_not] at hzero
    rw [hzero] at hmarks
    exact clearFrom_of_lanes fun j hj => hmarks.none_of_zero hj
  constructor
  · intro hne
    rw [blockFirst]
    by_cases hz0 : zeroMask N t0 ≠ 0#N.register
    · rw [if_pos hz0]
      obtain ⟨-, hS, hbefore⟩ := hm0.first_spec hz0
      exact ⟨hS, clearFrom_of_lanes hbefore⟩
    have hc0 := hpass hm0 hz0
    rw [if_neg hz0]
    by_cases hz1 : zeroMask N t1 ≠ 0#N.register
    · rw [if_pos hz1, ← Nat.add_assoc]
      obtain ⟨-, hS, hbefore⟩ := hm1.first_spec hz1
      exact ⟨hS, hc0.trans (clearFrom_of_lanes hbefore)⟩
    have hc1 := hc0.trans (hpass hm1 hz1)
    have hp2 : p + N.width + N.width = p + 2 * N.width := by omega
    rw [hp2] at hc1
    rw [if_neg hz1]
    by_cases hz2 : zeroMask N t2 ≠ 0#N.register
    · rw [if_pos hz2, ← Nat.add_assoc]
      obtain ⟨-, hS, hbefore⟩ := hm2.first_spec hz2
      exact ⟨hS, hc1.trans (clearFrom_of_lanes hbefore)⟩
    have hc2 := hc1.trans (hpass hm2 hz2)
    have hp3 : p + 2 * N.width + N.width = p + 3 * N.width := by omega
    rw [hp3] at hc2
    rw [if_neg hz2, ← Nat.add_assoc]
    -- one of the four holds a zero lane, and the first three do not
    have hz3 : zeroMask N t3 ≠ 0#N.register := by
      intro hzero
      obtain ⟨hlt, hS, -⟩ := hmask.first_spec hne
      rw [hzero] at hm3
      rcases hS with (hS | hS) | (hS | hS)
      · exact hc2 _ (by omega) (by omega) hS
      · exact hc2 _ (by omega) (by omega) hS
      · exact hc2 _ (by omega) (by omega) hS
      · exact hm3.none_of_zero hlt hS
    obtain ⟨-, hS, hbefore⟩ := hm3.first_spec hz3
    exact ⟨hS, hc2.trans (clearFrom_of_lanes hbefore)⟩
  · intro hzero
    rw [hzero] at hmask
    intro a ha ha' hS
    -- the lane of an address in the block
    have hcases : a < p + N.width ∨ (p + N.width ≤ a ∧ a < p + 2 * N.width) ∨
        (p + 2 * N.width ≤ a ∧ a < p + 3 * N.width) ∨ p + 3 * N.width ≤ a := by omega
    rcases hcases with h | ⟨hlo, hhi⟩ | ⟨hlo, hhi⟩ | hlo
    · refine hmask.none_of_zero (j := a - p) (by omega) (Or.inl (Or.inl ?_))
      rwa [Nat.add_sub_cancel' ha]
    · refine hmask.none_of_zero (j := a - (p + N.width)) (by omega) (Or.inl (Or.inr ?_))
      rwa [Nat.add_sub_cancel' hlo]
    · refine hmask.none_of_zero (j := a - (p + 2 * N.width)) (by omega) (Or.inr (Or.inl ?_))
      rwa [Nat.add_sub_cancel' hlo]
    · refine hmask.none_of_zero (j := a - (p + 3 * N.width)) (by omega) (Or.inr (Or.inr ?_))
      rwa [Nat.add_sub_cancel' hlo]

/-- An aligned block whose size divides the page lies in one page. -/
theorem page_of_aligned {B a : ℕ} (hB : B ∣ pageMin) (hp : p % B = 0) (ha : p ≤ a)
    (ha' : a < p + B) : a / pageMin = p / pageMin := by
  obtain ⟨k, hk⟩ := hB
  have hpos : 0 < B := by omega
  have hdiv := Nat.div_add_mod p B
  have hblock : a / B = p / B := by
    have heq : a = B * (p / B) + (a - p) := by omega
    have hrest : (a - p) / B = 0 := Nat.div_eq_of_lt (by omega)
    rw [heq, Nat.mul_add_div hpos, hrest, Nat.add_zero]
  rw [hk, ← Nat.div_div_eq_div_mul, ← Nat.div_div_eq_div_mul, hblock]

/-- A load within an aligned block whose first byte was reached. -/
theorem pagesRead_of_aligned {B w : ℕ} (hB : B ∣ pageMin) (hp : p % B = 0)
    (hread : Reads S b finish p) (hq : p ≤ q) (hq' : q + w ≤ p + B) :
    PagesRead S b finish ⟨q, w⟩ := by
  refine ⟨p, hread, ?_⟩
  rintro a ⟨ha, ha'⟩
  dsimp only at ha ha'
  exact page_of_aligned hB hp (by omega) (by omega)

/-- A load within the rest of a page that was reached. -/
theorem pagesRead_of_room {k w : ℕ} (hread : Reads S b finish p) (hroom : k ≤ toPageEnd p)
    (hq : p ≤ q) (hq' : q + w ≤ p + k) : PagesRead S b finish ⟨q, w⟩ := by
  refine ⟨p, hread, ?_⟩
  rintro a ⟨ha, ha'⟩
  dsimp only at ha ha'
  have hpage : pageMin = 4096 := rfl
  simp only [toPageEnd, hpage] at hroom ⊢
  omega

/-- The load of a byte that was reached. -/
theorem pagesRead_byte (hread : Reads S b finish p) : PagesRead S b finish ⟨p, 1⟩ := by
  refine ⟨p, hread, ?_⟩
  rintro a ⟨ha, ha'⟩
  dsimp only at ha ha'
  obtain rfl : a = p := by omega
  rfl

/-- The aligned block that a byte so read lies in. -/
theorem pagesRead_around {w : ℕ} (hw : 0 < w) (hdvd : w ∣ pageMin) (hread : Reads S b finish p) :
    PagesRead S b finish ⟨p - p % w, w⟩ := by
  have hmod := Nat.mod_lt p hw
  have hle := Nat.mod_le p w
  have hstart : (p - p % w) % w = 0 := Nat.sub_mod_eq_zero_of_mod_eq (Nat.mod_mod p w).symm
  refine ⟨p, hread, ?_⟩
  rintro a ⟨ha, ha'⟩
  dsimp only at ha ha'
  rw [page_of_aligned hdvd hstart ha ha', page_of_aligned (a := p) hdvd hstart (by omega)
    (by omega)]

theorem mod_of_mod_four {w : ℕ} (hp : p % (4 * w) = 0) : p % w = 0 := by
  obtain ⟨k, rfl⟩ := Nat.dvd_of_mod_eq_zero hp
  rw [Nat.mul_comm 4, Nat.mul_assoc, Nat.mul_mod_right]

theorem scanBlocks_does (hw : 0 < N.width) (hdvd : 4 * N.width ∣ pageMin)
    (hT : ∀ p, Reads (StopsAt m c nul) b finish p → p ≤ T) (hbp : b ≤ p)
    (hp : p % (4 * N.width) = 0) (hclear : ClearFrom (StopsAt m c nul) b p)
    (hturns : T + 1 - p < turns) :
    Does (scanBlocks N turns c nul finish p) (PagesRead (StopsAt m c nul) b finish) m
      (Searched (StopsAt m c nul) b finish m) := by
  apply does_loop (fun p m' => m' = m ∧ b ≤ p ∧ p % (4 * N.width) = 0 ∧
      ClearFrom (StopsAt m c nul) b p) (fun p => T + 1 - p) _ _ ⟨rfl, hbp, hp, hclear⟩ hturns
  · rintro p m' next ⟨rfl, hbp, hp, hclear⟩ htest hnext
    have htest : p < finish := of_decide_eq_true htest
    have hread : Reads (StopsAt m' c nul) b finish p := ⟨hbp, htest, hclear⟩
    have hpT := hT p hread
    have hpw := mod_of_mod_four hp
    have hpages : ∀ q, p ≤ q → q + N.width ≤ p + 4 * N.width →
        PagesRead (StopsAt m' c nul) b finish ⟨q, N.width⟩ :=
      fun q hq hq' => pagesRead_of_aligned hdvd hp hread hq hq'
    apply does_loadAligned_four hpw hpages
    obtain ⟨hfound, hnone⟩ := blockFirst_spec (N := N) (S := StopsAt m' c nul) (p := p)
      (stopLanes_eq_zero m' c nul p) (stopLanes_eq_zero m' c nul _) (stopLanes_eq_zero m' c nul _)
      (stopLanes_eq_zero m' c nul _)
    apply does_ite
    · intro hne
      obtain ⟨hS, hbefore⟩ := hfound hne
      exact does_pure ⟨rfl, firstIn_below (by omega) hS (hclear.trans hbefore)⟩
    · intro hzero
      rw [ne_eq, not_not] at hzero
      apply hnext
      · refine ⟨rfl, by omega, ?_, hclear.trans (hnone hzero)⟩
        rw [Nat.add_mod_right, hp]
      · omega
  · rintro p m' ⟨rfl, hbp, hp, hclear⟩ htest
    have htest : ¬p < finish := of_decide_eq_false htest
    exact does_pure ⟨rfl, hclear.mono (by omega)⟩

theorem scan_does (hw : 0 < N.width) (hdvd : 4 * N.width ∣ pageMin)
    (hT : ∀ p, Reads (StopsAt m c nul) b finish p → p ≤ T) (hbs : b ≤ s)
    (hclear : ClearFrom (StopsAt m c nul) b s) (hs : s < finish) (hturns : T < s + turns) :
    Does (scan N turns s c nul finish) (PagesRead (StopsAt m c nul) b finish) m
      (Searched (StopsAt m c nul) b finish m) := by
  have hdvd' : N.width ∣ pageMin := Nat.dvd_trans (Nat.dvd_mul_left N.width 4) hdvd
  have hmod := Nat.mod_lt s hw
  have hle := Nat.mod_le s N.width
  have hstart : (s - s % N.width) % N.width = 0 :=
    Nat.sub_mod_eq_zero_of_mod_eq (Nat.mod_mod s N.width).symm
  have hread : Reads (StopsAt m c nul) b finish s := ⟨hbs, hs, hclear⟩
  have hsT := hT s hread
  apply does_bind
  apply does_loadAligned hstart (pagesRead_around hw hdvd' hread)
  -- the lanes before the start are shifted out
  have hmask := (marks_zeroMask (N := N) (P := fun j => StopsAt m c nul (s - s % N.width + j))
    (stopLanes_eq_zero m c nul (s - s % N.width))).shift (s % N.width)
  have haddr : ∀ j, s - s % N.width + (s % N.width + j) = s + j := by
    intro j
    omega
  simp only [haddr] at hmask
  apply does_ite
  · intro hne
    obtain ⟨-, ⟨-, hS⟩, hbefore⟩ := hmask.first_spec hne
    refine does_pure ⟨rfl, firstIn_below (by omega) hS (hclear.trans (clearFrom_of_lanes ?_))⟩
    intro j hj hSj
    obtain ⟨hlt, ⟨hlane, -⟩, -⟩ := hmask.first_spec hne
    exact hbefore j hj ⟨by omega, hSj⟩
  · intro hzero
    rw [ne_eq, not_not] at hzero
    rw [hzero] at hmask
    have hfirst : ClearFrom (StopsAt m c nul) b (s - s % N.width + N.width) := by
      refine hclear.trans ?_
      intro a ha ha' hSa
      refine hmask.none_of_zero (j := a - s) (by omega) ⟨by omega, ?_⟩
      rwa [Nat.add_sub_cancel' ha]
    apply does_loop (fun p m' => m' = m ∧ s < p ∧ p % N.width = 0 ∧
        ClearFrom (StopsAt m c nul) b p) (fun p => T + 1 - p) _ _
      ⟨rfl, by omega, by rw [Nat.add_mod_right, hstart], hfirst⟩ (by omega)
    · rintro p m' next ⟨rfl, hsp, hp, hclear⟩ - hnext
      apply does_ite
      · intro hend
        exact does_pure ⟨rfl, hclear.mono hend⟩
      · intro hend
        have hread : Reads (StopsAt m' c nul) b finish p := ⟨by omega, by omega, hclear⟩
        have hpT := hT p hread
        apply does_bind
        apply does_loadAligned hp (pagesRead_of_aligned hdvd' hp hread le_rfl le_rfl)
        have hmask := marks_zeroMask (N := N) (P := fun j => StopsAt m' c nul (p + j))
          (stopLanes_eq_zero m' c nul p)
        apply does_ite
        · intro hne
          obtain ⟨-, hS, hbefore⟩ := hmask.first_spec hne
          exact does_pure
            ⟨rfl, firstIn_below (by omega) hS (hclear.trans (clearFrom_of_lanes hbefore))⟩
        · intro hzero
          rw [ne_eq, not_not] at hzero
          rw [hzero] at hmask
          apply hnext
          · refine ⟨rfl, by omega, by rw [Nat.add_mod_right, hp], hclear.trans ?_⟩
            exact clearFrom_of_lanes fun j hj => hmask.none_of_zero hj
          · omega
    · rintro p m' ⟨rfl, hsp, hp, hclear⟩ htest
      have htest : ¬p % (4 * N.width) ≠ 0 := of_decide_eq_false htest
      exact scanBlocks_does hw hdvd hT (by omega) (by omega) hclear (by omega)

end Scan

end OpenkalMusl.Strings
