import OpenkalMusl.Strings.Search

/-!
# The length of a string

`strlen` in every variant of `okm_string.c`. Over sixteen bytes it is a search for a zero byte; over
thirty-two it reads the first vector alone, the next three together, and then blocks of four from
the block that holds the byte after them. A word at a time it finds a zero byte by the arithmetic on
words: where the first byte is the least significant the lowest bit so found is that of the first
zero byte, and where it is not the word is gone through a byte at a time.

## Main definitions

* `Strings.Variant.strlen`

## Main results

* `Strings.strlen_does`: what it returns, and the pages it loads from
* `Strings.searches_eq_plain`: every variant of the three searches returns what the
  bytewise one does
-/

namespace OpenkalMusl.Strings

open Bytes Bytes.Program

/-! ## The functions -/

/-- What a search found, as a distance from the start; a null pointer is address zero. -/
def distanceFrom (s : ℕ) : Option ℕ → ℕ
  | some q => q - s
  | none => (2 ^ 64 - s) % 2 ^ 64

def strlen16 (N : Narrowing) (turns s : ℕ) : Program ℕ :=
  let w := N.width
  if 4 * w ≤ toPageEnd s then
    loop (fun k => k < 4 * w)
      (fun k next => do
        let x ← load w (s + k)
        if zeroMask N x ≠ 0#N.register then pure (k + N.first (zeroMask N x)) else next (k + w))
      (fun _ => do
        let q ← scan N turns (s + 4 * w) 0 false uintptrMax
        pure (distanceFrom s q))
      turns 0
  else do
    let q ← scan N turns s 0 false uintptrMax
    pure (distanceFrom s q)

/-- The loop of `strlen32`, four vectors at a time. -/
def strlenBlocks (N : Narrowing) (turns s : ℕ) : ℕ → Program ℕ :=
  let w := N.width
  loop (fun _ => true)
    (fun p next => do
      let x0 ← loadAligned w p
      let x1 ← loadAligned w (p + w)
      let x2 ← loadAligned w (p + 2 * w)
      let x3 ← loadAligned w (p + 3 * w)
      if zeroMask N (Vec.least (Vec.least x0 x1) (Vec.least x2 x3)) ≠ 0#N.register then
        pure (p - s + blockFirst N x0 x1 x2 x3)
      else next (p + 4 * w))
    (fun _ => fault) turns

/-- The first vector alone, the next three together, and then four at a time from the block that
holds the byte after them. -/
def strlen32 (N : Narrowing) (turns s : ℕ) : Program ℕ :=
  let w := N.width
  let stop := zeroMask N
  if 4 * w ≤ toPageEnd s then do
    let a ← load w s
    if stop a ≠ 0#N.register then pure (N.first (stop a))
    else do
      let b ← load w (s + w)
      let c ← load w (s + 2 * w)
      let d ← load w (s + 3 * w)
      if stop (Vec.least b (Vec.least c d)) ≠ 0#N.register then
        if stop b ≠ 0#N.register then pure (w + N.first (stop b))
        else if stop c ≠ 0#N.register then pure (2 * w + N.first (stop c))
        else pure (3 * w + N.first (stop d))
      else strlenBlocks N turns s ((s + 4 * w) / (4 * w) * (4 * w))
  else do
    let q ← scan N turns s 0 false uintptrMax
    pure (distanceFrom s q)

/-- The bytes before the string, made non-zero. -/
def before (n off : ℕ) : BitVec n := if off ≠ 0 then (1#n <<< (8 * off)) - 1#n else 0#n

/-- The first byte is the least significant: the lowest bit that finds a zero byte is that of the
first. -/
def strlenLittle (k turns s : ℕ) : Program ℕ := do
  let v ← loadAligned k (s - s % k)
  loop (fun x : ℕ × BitVec (8 * k) => hasZero x.2 = 0#(8 * k))
    (fun x next => do
      let v ← loadAligned k (x.1 + k)
      next (x.1 + k, little v))
    (fun x => pure (x.1 + (hasZero x.2).ctz.toNat / 8 - s))
    turns (s - s % k, little v ||| before (8 * k) (s % k))

/-- The first byte is the most significant: the word that holds a zero byte is gone through a byte
at a time. -/
def strlenBig (k turns s : ℕ) : Program ℕ :=
  loop (fun p => p % k ≠ 0)
    (fun p next => do
      let a ← byte p
      if a = 0 then pure (p - s) else next (p + 1))
    (fun p =>
      loop (fun _ => true)
        (fun p next => do
          let v ← loadAligned k p
          if hasZero (little fun i : Fin k => v i.rev) = 0#(8 * k) then next (p + k)
          else
            loop (fun _ => true)
              (fun p next => do
                let a ← byte p
                if a = 0 then pure (p - s) else next (p + 1))
              (fun _ => fault) turns p)
        (fun _ => fault) turns p)
    turns s

def Variant.strlen (V : Variant) (turns s : ℕ) : Program ℕ :=
  match V with
  | .avx2 => strlen32 Strings.avx2 turns s
  | .sse2 => strlen16 Strings.sse2 turns s
  | .neon => strlen16 Strings.neon turns s
  | .words .little size => strlenLittle size.bytes turns s
  | .words .big size => strlenBig size.bytes turns s

/-! ## What `strlen` does -/

/-- The length is returned, and memory is as it was. -/
def Measured (m : Memory) (i v : ℕ) (m' : Memory) : Prop := v = i ∧ m' = m

/-- The loads that lie in the page of a byte of the string. -/
abbrev StringPages (m : Memory) (s i : ℕ) : Load → Prop :=
    PagesRead (StopsAt m 0 false) s (s + i + 1)

section Strlen

variable {N : Narrowing} {m : Memory} {s p q i turns : ℕ}

theorem stopsAt_zero_iff (a : ℕ) : StopsAt m 0 false a ↔ m a = 0 := by
  simp [StopsAt]

theorem EndsAt.stop (h : EndsAt m s i) : StopsAt m 0 false (s + i) := Or.inl h.zero

/-- The first zero byte is the end of the string. -/
theorem EndsAt.eq_of_first (h : EndsAt m s i) (hq : s ≤ q) (hS : StopsAt m 0 false q)
    (hclear : ClearFrom (StopsAt m 0 false) s q) : q = s + i := by
  have hle := hclear.le (Nat.le_add_right s i) h.stop
  have hge : s + i ≤ q := by
    by_contra hcon
    refine h.nonzero (q - s) (by omega) ?_
    rw [Nat.add_sub_cancel' hq]
    exact (stopsAt_zero_iff q).mp hS
  omega

/-- A position before which no byte is zero is one of the string's. -/
theorem EndsAt.reads (h : EndsAt m s i) (hp : s ≤ p) (hclear : ClearFrom (StopsAt m 0 false) s p) :
    Reads (StopsAt m 0 false) s (s + i + 1) p := by
  have hle := hclear.le (Nat.le_add_right s i) h.stop
  exact ⟨hp, by omega, hclear⟩

theorem marks_zero (m : Memory) (p : ℕ) :
    N.Marks (zeroMask N (m.vec N.width p)) (fun j => StopsAt m 0 false (p + j)) := by
  apply marks_zeroMask
  intro j
  rw [stopsAt_zero_iff]
  rfl

/-- The aligned search from a position of the string finds its end. -/
theorem scanLength_does (hw : 0 < N.width) (hdvd : 4 * N.width ∣ pageMin) (hend : EndsAt m s i)
    (hi : s + i < uintptrMax) (hp : s ≤ p) (hclear : ClearFrom (StopsAt m 0 false) s p)
    (hturns : i < turns) :
    Does (do
      let q ← scan N turns p 0 false uintptrMax
      pure (distanceFrom s q)) (StringPages m s i) m (Measured m i) := by
  have hreads : ∀ p, Reads (StopsAt m 0 false) s uintptrMax p → p ≤ s + i :=
    fun p hp => hp.2.2.le (Nat.le_add_right s i) hend.stop
  have hle := hclear.le (Nat.le_add_right s i) hend.stop
  apply does_bind
  refine (scan_does hw hdvd hreads hp hclear (by omega) (by omega)).mono ?_ ?_
  · rintro a ⟨p, hp, hpage⟩
    exact ⟨p, hend.reads hp.1 hp.2.2, hpage⟩
  · rintro v m' ⟨rfl, hv⟩
    apply does_pure
    refine ⟨?_, rfl⟩
    cases v with
    | none => exact absurd hend.stop (hv _ (Nat.le_add_right s i) hi)
    | some q =>
      obtain ⟨⟨hsq, -, hclear⟩, hS⟩ := hv
      rw [distanceFrom, hend.eq_of_first hsq hS hclear, Nat.add_sub_cancel_left]

theorem strlen16_does (hw : 0 < N.width) (hdvd : 4 * N.width ∣ pageMin) (hend : EndsAt m s i)
    (hi : s + i < uintptrMax) (hturns : i < turns) :
    Does (strlen16 N turns s) (StringPages m s i) m (Measured m i) := by
  have hstart := hend.reads le_rfl clearFrom_self
  apply does_ite
  · intro hroom
    apply does_loop (fun k m' => m' = m ∧ k ≤ 4 * N.width ∧ (∃ j, k = N.width * j) ∧
        ClearFrom (StopsAt m 0 false) s (s + k)) (fun k => i - k) _ _
      ⟨rfl, Nat.zero_le _, ⟨0, rfl⟩, clearFrom_self⟩ (by omega)
    · rintro k m' next ⟨rfl, hk, hmul, hclear⟩ htest hnext
      have htest : k < 4 * N.width := of_decide_eq_true htest
      obtain ⟨hk', hmul'⟩ := next_of_multiple hmul htest
      apply does_bind
      apply does_load (pagesRead_of_room hstart hroom (by omega) (by omega))
      have hmask := marks_zero (N := N) m' (s + k)
      apply does_ite
      · intro hne
        obtain ⟨-, hS, hbefore⟩ := hmask.first_spec hne
        have hq := hend.eq_of_first (by omega) hS (hclear.trans (clearFrom_of_lanes hbefore))
        exact does_pure ⟨by omega, rfl⟩
      · intro hzero
        rw [ne_eq, not_not] at hzero
        rw [hzero] at hmask
        have hclear' := hclear.trans (clearFrom_of_lanes fun j hj => hmask.none_of_zero hj)
        rw [Nat.add_assoc] at hclear'
        have hle := hclear'.le (Nat.le_add_right s i) hend.stop
        exact hnext _ _ ⟨rfl, hk', hmul', hclear'⟩ (by omega)
    · rintro k m' ⟨rfl, hk, hmul, hclear⟩ htest
      have htest : ¬k < 4 * N.width := of_decide_eq_false htest
      obtain rfl : k = 4 * N.width := by omega
      exact scanLength_does hw hdvd hend hi (by omega) hclear hturns
  · intro _
    exact scanLength_does hw hdvd hend hi le_rfl clearFrom_self hturns

theorem strlenBlocks_does (hw : 0 < N.width) (hdvd : 4 * N.width ∣ pageMin) (hend : EndsAt m s i)
    (hp : s ≤ p) (hmod : p % (4 * N.width) = 0) (hclear : ClearFrom (StopsAt m 0 false) s p)
    (hturns : i < turns) :
    Does (strlenBlocks N turns s p) (StringPages m s i) m (Measured m i) := by
  apply does_loop (fun p m' => m' = m ∧ s ≤ p ∧ p % (4 * N.width) = 0 ∧
      ClearFrom (StopsAt m 0 false) s p) (fun p => s + i - p) _ _ ⟨rfl, hp, hmod, hclear⟩ (by omega)
  · rintro p m' next ⟨rfl, hp, hmod, hclear⟩ - hnext
    have hread := hend.reads hp hclear
    have hpw := mod_of_mod_four hmod
    have hpages : ∀ q, p ≤ q → q + N.width ≤ p + 4 * N.width → StringPages m' s i ⟨q, N.width⟩ :=
      fun q hq hq' => pagesRead_of_aligned hdvd hmod hread hq hq'
    have hlanes : ∀ (q : ℕ) (j : Fin N.width), m'.vec N.width q j = 0 ↔
        StopsAt m' 0 false (q + j) := fun q j => (stopsAt_zero_iff _).symm
    apply does_loadAligned_four hpw hpages
    obtain ⟨hfound, hnone⟩ := blockFirst_spec (N := N) (S := StopsAt m' 0 false) (p := p)
      (hlanes _) (hlanes _) (hlanes _) (hlanes _)
    apply does_ite
    · intro hne
      obtain ⟨hS, hbefore⟩ := hfound hne
      have hq := hend.eq_of_first (by omega) hS (hclear.trans hbefore)
      exact does_pure ⟨by omega, rfl⟩
    · intro hzero
      rw [ne_eq, not_not] at hzero
      have hclear' := hclear.trans (hnone hzero)
      have hle := hclear'.le (Nat.le_add_right s i) hend.stop
      exact hnext _ _ ⟨rfl, by omega, by rw [Nat.add_mod_right, hmod], hclear'⟩ (by omega)
  · intro p m' _ htest
    cases htest

/-- Three vectors reduced to one. -/
theorem marks_three (m : Memory) (p q r : ℕ) :
    N.Marks (zeroMask N (Vec.least (m.vec N.width p)
      (Vec.least (m.vec N.width q) (m.vec N.width r))))
      (fun j => m (p + j) = 0 ∨ m (q + j) = 0 ∨ m (r + j) = 0) := by
  apply marks_zeroMask
  intro j
  rw [Vec.least_eq_zero, Vec.least_eq_zero]
  exact Iff.rfl

theorem strlen32_does (hw : 0 < N.width) (hdvd : 4 * N.width ∣ pageMin) (hend : EndsAt m s i)
    (hi : s + i < uintptrMax) (hturns : i < turns) :
    Does (strlen32 N turns s) (StringPages m s i) m (Measured m i) := by
  have hstart := hend.reads le_rfl clearFrom_self
  apply does_ite
  · intro hroom
    have hpages : ∀ q, s ≤ q → q + N.width ≤ s + 4 * N.width → StringPages m s i ⟨q, N.width⟩ :=
      fun q hq hq' => pagesRead_of_room hstart hroom hq hq'
    -- a vector whose mask is zero is clear, and one whose mask is not holds the end
    have hpass : ∀ {q : ℕ}, ClearFrom (StopsAt m 0 false) s q →
        ¬zeroMask N (m.vec N.width q) ≠ 0#N.register →
        ClearFrom (StopsAt m 0 false) s (q + N.width) := by
      intro q hclear hzero
      have hmask := marks_zero (N := N) m q
      rw [ne_eq, not_not] at hzero
      rw [hzero] at hmask
      exact hclear.trans (clearFrom_of_lanes fun j hj => hmask.none_of_zero hj)
    have hfound : ∀ {q : ℕ}, s ≤ q → ClearFrom (StopsAt m 0 false) s q →
        zeroMask N (m.vec N.width q) ≠ 0#N.register →
        q + N.first (zeroMask N (m.vec N.width q)) = s + i := by
      intro q hq hclear hne
      obtain ⟨-, hS, hbefore⟩ := (marks_zero (N := N) m q).first_spec hne
      exact hend.eq_of_first (by omega) hS (hclear.trans (clearFrom_of_lanes hbefore))
    apply does_bind
    apply does_load (hpages _ (by omega) (by omega))
    apply does_ite
    · intro hne
      have hq := hfound le_rfl clearFrom_self hne
      exact does_pure ⟨by omega, rfl⟩
    intro hza
    have hca := hpass clearFrom_self hza
    apply does_bind
    apply does_load (hpages _ (by omega) (by omega))
    apply does_bind
    apply does_load (hpages _ (by omega) (by omega))
    apply does_bind
    apply does_load (hpages _ (by omega) (by omega))
    have hthree := marks_three (N := N) m (s + N.width) (s + 2 * N.width) (s + 3 * N.width)
    have h2 : s + N.width + N.width = s + 2 * N.width := by omega
    have h3 : s + 2 * N.width + N.width = s + 3 * N.width := by omega
    have h4 : s + 3 * N.width + N.width = s + 4 * N.width := by omega
    apply does_ite
    · intro hne
      apply does_ite
      · intro hb
        have hq := hfound (by omega) hca hb
        exact does_pure ⟨by omega, rfl⟩
      intro hzb
      have hcb := hpass hca hzb
      rw [h2] at hcb
      apply does_ite
      · intro hc
        have hq := hfound (by omega) hcb hc
        exact does_pure ⟨by omega, rfl⟩
      intro hzc
      have hcc := hpass hcb hzc
      rw [h3] at hcc
      -- the zero lane is in the last vector
      have hd : zeroMask N (m.vec N.width (s + 3 * N.width)) ≠ 0#N.register := by
        intro hzero
        obtain ⟨hlt, hS, -⟩ := hthree.first_spec hne
        have hcd := hpass hcc (fun h => h hzero)
        rcases hS with hS | hS | hS
        · exact hcd _ (by omega) (by omega) (Or.inl hS)
        · exact hcd _ (by omega) (by omega) (Or.inl hS)
        · exact hcd _ (by omega) (by omega) (Or.inl hS)
      have hq := hfound (by omega) hcc hd
      exact does_pure ⟨by omega, rfl⟩
    · intro hzero
      rw [ne_eq, not_not] at hzero
      rw [hzero] at hthree
      have hclear : ClearFrom (StopsAt m 0 false) s (s + 4 * N.width) := by
        have hcb := hca.trans (clearFrom_of_lanes fun j hj hS =>
          hthree.none_of_zero hj (Or.inl ((stopsAt_zero_iff _).mp hS)))
        rw [h2] at hcb
        have hcc := hcb.trans (clearFrom_of_lanes fun j hj hS =>
          hthree.none_of_zero hj (Or.inr (Or.inl ((stopsAt_zero_iff _).mp hS))))
        rw [h3] at hcc
        have hcd := hcc.trans (clearFrom_of_lanes fun j hj hS =>
          hthree.none_of_zero hj (Or.inr (Or.inr ((stopsAt_zero_iff _).mp hS))))
        rwa [h4] at hcd
      have hle := Nat.div_mul_le_self (s + 4 * N.width) (4 * N.width)
      have hlt : s < (s + 4 * N.width) / (4 * N.width) * (4 * N.width) := by
        have hdiv := Nat.div_add_mod (s + 4 * N.width) (4 * N.width)
        have hmod := Nat.mod_lt (s + 4 * N.width) (show 0 < 4 * N.width by omega)
        rw [Nat.mul_comm] at hdiv
        omega
      exact strlenBlocks_does hw hdvd hend (by omega) (Nat.mul_mod_left _ _)
        (hclear.mono hle) hturns
  · intro _
    exact scanLength_does hw hdvd hend hi le_rfl clearFrom_self hturns

/-- What `strlen` a word at a time knows of a word it has loaded: its zero bytes are those of the
string, and the string has none before it. -/
def WordAt (m : Memory) (s k : ℕ) (x : ℕ × BitVec (8 * k)) (m' : Memory) : Prop :=
  m' = m ∧ x.1 % k = 0 ∧ s < x.1 + k ∧ ClearFrom (StopsAt m 0 false) s x.1 ∧
    ∃ v : Vec k, x.2 = little v ∧ ∀ j : Fin k, v j = 0 ↔ s ≤ x.1 + j ∧ m (x.1 + j) = 0

theorem wordAt_start {k : ℕ} (hk : 0 < k) :
    WordAt m s k (s - s % k, little (m.vec k (s - s % k)) ||| before (8 * k) (s % k)) m := by
  have hmod := Nat.mod_lt s hk
  have hle := Nat.mod_le s k
  refine ⟨rfl, Nat.sub_mod_eq_zero_of_mod_eq (Nat.mod_mod s k).symm, by dsimp only; omega, ?_, ?_⟩
  · intro a ha ha'
    dsimp only at ha'
    omega
  dsimp only
  by_cases hoff : s % k = 0
  · refine ⟨m.vec k (s - s % k), ?_, ?_⟩
    · rw [before, hoff, if_neg (fun h => h rfl), BitVec.or_zero]
    · intro j
      exact ⟨fun h => ⟨by omega, h⟩, fun h => h.2⟩
  · refine ⟨fun j => if j.val < s % k then 255 else m.vec k (s - s % k) j, ?_, ?_⟩
    · rw [before, if_pos hoff, little_or_low _ hmod]
    · intro j
      dsimp only
      by_cases hj : j.val < s % k
      · rw [if_pos hj]
        exact ⟨fun h => absurd h (by decide), fun h => absurd h.1 (by omega)⟩
      · rw [if_neg hj]
        exact ⟨fun h => ⟨by omega, h⟩, fun h => h.2⟩

theorem strlenLittle_does {k : ℕ} (hk : 0 < k) (hdvd : k ∣ pageMin) (hend : EndsAt m s i)
    (hturns : i < turns) :
    Does (strlenLittle k turns s) (StringPages m s i) m (Measured m i) := by
  have hstart := hend.reads le_rfl clearFrom_self
  have hmod := Nat.mod_lt s hk
  have hle := Nat.mod_le s k
  have hp0 : (s - s % k) % k = 0 := Nat.sub_mod_eq_zero_of_mod_eq (Nat.mod_mod s k).symm
  apply does_bind
  apply does_loadAligned hp0 (pagesRead_around hk hdvd hstart)
  apply does_loop (WordAt m s k) (fun x => s + i - max x.1 s) _ _ (wordAt_start hk)
    (by dsimp only; omega)
  · rintro ⟨p, x⟩ m' next ⟨rfl, hp, hsp, hclear, v, rfl, hv⟩ htest hnext
    dsimp only at hp hsp hclear hv ⊢
    have htest : hasZero (little v) = 0#(8 * k) := of_decide_eq_true htest
    have hnone := (hasZero_eq_zero_iff hk v).mp htest
    have hclear' : ClearFrom (StopsAt m' 0 false) s (p + k) := by
      intro a ha ha' hS
      by_cases hap : a < p
      · exact hclear a ha hap hS
      · refine hnone ⟨a - p, by omega⟩ ((hv _).mpr ?_)
        dsimp only
        rw [Nat.add_sub_cancel' (by omega)]
        exact ⟨ha, (stopsAt_zero_iff a).mp hS⟩
    have hpi := hclear'.le (Nat.le_add_right s i) hend.stop
    have hpk : (p + k) % k = 0 := by rw [Nat.add_mod_right, hp]
    apply does_bind
    apply does_loadAligned hpk
      (pagesRead_of_aligned hdvd hpk (hend.reads (by omega) hclear') le_rfl le_rfl)
    apply hnext
    · refine ⟨rfl, hpk, by dsimp only; omega, hclear', m'.vec k (p + k), rfl, ?_⟩
      intro j
      exact ⟨fun h => ⟨by dsimp only; omega, h⟩, fun h => h.2⟩
    · change s + i - max (p + k) s < s + i - max p s
      omega
  · rintro ⟨p, x⟩ m' ⟨rfl, hp, hsp, hclear, v, rfl, hv⟩ htest
    dsimp only at hp hsp hclear hv ⊢
    have htest : hasZero (little v) ≠ 0#(8 * k) := of_decide_eq_false htest
    obtain ⟨j, hj, hzero, hbefore⟩ := first_zero hk htest
    obtain ⟨hsj, hmj⟩ := (hv j).mp hzero
    have hq := hend.eq_of_first hsj (Or.inl hmj) (by
      intro a ha ha' hS
      by_cases hap : a < p
      · exact hclear a ha hap hS
      · refine hbefore ⟨a - p, by omega⟩ (by simp only [Fin.lt_def]; omega) ((hv _).mpr ?_)
        dsimp only
        rw [Nat.add_sub_cancel' (by omega)]
        exact ⟨ha, (stopsAt_zero_iff a).mp hS⟩)
    rw [hj]
    exact does_pure ⟨by omega, rfl⟩

/-- A byte at a time from a position of the string to its end, while `test` holds. -/
theorem strlenBytes_does {test : ℕ → Bool} {after : ℕ → Program ℕ} (hend : EndsAt m s i)
    (hturns : i < turns)
    (hafter : ∀ p m', m' = m ∧ s ≤ p ∧ ClearFrom (StopsAt m 0 false) s p → test p = false →
      Does (after p) (StringPages m s i) m' (Measured m i))
    (hp : s ≤ p) (hclear : ClearFrom (StopsAt m 0 false) s p) :
    Does (loop test (fun p next => do
      let a ← byte p
      if a = 0 then pure (p - s) else next (p + 1)) after turns p) (StringPages m s i) m
      (Measured m i) := by
  apply does_loop (fun p m' => m' = m ∧ s ≤ p ∧ ClearFrom (StopsAt m 0 false) s p)
    (fun p => s + i - p) _ hafter ⟨rfl, hp, hclear⟩ (by omega)
  rintro p m' next ⟨rfl, hp, hclear⟩ - hnext
  apply does_bind
  apply does_byte (pagesRead_byte (hend.reads hp hclear))
  apply does_ite
  · intro hzero
    have hq := hend.eq_of_first hp (Or.inl hzero) hclear
    exact does_pure ⟨by omega, rfl⟩
  · intro hne
    have hclear' : ClearFrom (StopsAt m' 0 false) s (p + 1) := by
      refine hclear.trans (clearFrom_of_lanes ?_)
      intro j hj hS
      obtain rfl : j = 0 := by omega
      exact hne ((stopsAt_zero_iff _).mp hS)
    have hle := hclear'.le (Nat.le_add_right s i) hend.stop
    exact hnext _ _ ⟨rfl, by omega, hclear'⟩ (by omega)

theorem strlenBig_does {k : ℕ} (hk : 0 < k) (hdvd : k ∣ pageMin) (hend : EndsAt m s i)
    (hturns : i < turns) :
    Does (strlenBig k turns s) (StringPages m s i) m (Measured m i) := by
  refine strlenBytes_does hend hturns ?_ le_rfl clearFrom_self
  rintro p m' ⟨rfl, hp, hclear⟩ htest
  have hmod : ¬p % k ≠ 0 := of_decide_eq_false htest
  apply does_loop (fun p m'' => m'' = m' ∧ s ≤ p ∧ p % k = 0 ∧
      ClearFrom (StopsAt m' 0 false) s p) (fun p => s + i - p) _ _ ⟨rfl, hp, by omega, hclear⟩
    (by omega)
  · rintro p m'' next ⟨rfl, hp, hmod, hclear⟩ - hnext
    apply does_bind
    apply does_loadAligned hmod
      (pagesRead_of_aligned hdvd hmod (hend.reads hp hclear) le_rfl le_rfl)
    apply does_ite
    · intro hzero
      have hnone := (hasZero_eq_zero_iff hk _).mp hzero
      have hclear' : ClearFrom (StopsAt m'' 0 false) s (p + k) := by
        refine hclear.trans (clearFrom_of_lanes ?_)
        intro j hj hS
        refine hnone (Fin.rev ⟨j, hj⟩) ?_
        rw [Fin.rev_rev]
        exact (stopsAt_zero_iff _).mp hS
      have hle := hclear'.le (Nat.le_add_right s i) hend.stop
      exact hnext _ _ ⟨rfl, by omega, by rw [Nat.add_mod_right, hmod], hclear'⟩ (by omega)
    · intro _
      refine strlenBytes_does hend hturns ?_ hp hclear
      intro p m' _ htest
      cases htest
  · intro p m' _ htest
    cases htest

theorem WordSize.dvd_page (size : WordSize) : 0 < size.bytes ∧ size.bytes ∣ pageMin := by
  cases size <;> decide

/-- `strlen` in every variant. -/
theorem strlen_does (V : Variant) (hend : EndsAt m s i) (hlow : V.Low (s + i))
    (hturns : i < turns) : Does (V.strlen turns s) (StringPages m s i) m (Measured m i) := by
  cases V with
  | avx2 => exact strlen32_does (by decide) (by decide) hend (hlow.lt_max rfl) hturns
  | sse2 => exact strlen16_does (by decide) (by decide) hend (hlow.lt_max rfl) hturns
  | neon => exact strlen16_does (by decide) (by decide) hend (hlow.lt_max rfl) hturns
  | words order size =>
    obtain ⟨hk, hdvd⟩ := size.dvd_page
    cases order with
    | little => exact strlenLittle_does hk hdvd hend hturns
    | big => exact strlenBig_does hk hdvd hend hturns

end Strlen

/-! ## The searches a byte at a time -/

section Bytewise

variable {m : Memory} {c : UInt8} {s n i turns : ℕ}

theorem Plain.memchr_does (hturns : n < turns) :
    Does (Plain.memchr turns s c n) (fun _ => True) m
      (Searched (StopsAt m c false) s (s + n) m) := by
  apply does_loop (fun i m' => m' = m ∧ i ≤ n ∧ ClearFrom (StopsAt m c false) s (s + i))
    (fun i => n - i) _ _ ⟨rfl, Nat.zero_le n, clearFrom_self⟩ (by omega)
  · rintro i m' next ⟨rfl, hi, hclear⟩ htest hnext
    have htest : i < n := of_decide_eq_true htest
    apply does_bind
    apply does_byte trivial
    apply does_ite
    · intro heq
      exact does_pure ⟨rfl, ⟨by omega, by omega, hclear⟩, Or.inl heq⟩
    · intro hne
      have hclear' : ClearFrom (StopsAt m' c false) s (s + (i + 1)) := by
        refine hclear.trans (clearFrom_of_lanes (w := 1) ?_)
        rintro j hj (h | ⟨h, -⟩)
        · obtain rfl : j = 0 := by omega
          exact hne h
        · cases h
      exact hnext _ _ ⟨rfl, htest, hclear'⟩ (by omega)
  · rintro i m' ⟨rfl, hi, hclear⟩ htest
    have htest : ¬i < n := of_decide_eq_false htest
    exact does_pure ⟨rfl, hclear.mono (by omega)⟩

theorem Plain.strchr_does (hend : EndsAt m s i) (hturns : i < turns) :
    Does (Plain.strchr turns s c) (fun _ => True) m
      (Searched (StopsAt m c false) s (s + i + 1) m) := by
  apply does_loop (fun j m' => m' = m ∧ j ≤ i ∧ ClearFrom (StopsAt m c false) s (s + j))
    (fun j => i - j) _ _ ⟨rfl, Nat.zero_le i, clearFrom_self⟩ (by omega)
  · rintro j m' next ⟨rfl, hj, hclear⟩ - hnext
    apply does_bind
    apply does_byte trivial
    apply does_ite
    · intro heq
      exact does_pure ⟨rfl, ⟨by omega, by omega, hclear⟩, Or.inl heq⟩
    intro hne
    have hclear' : ClearFrom (StopsAt m' c false) s (s + (j + 1)) := by
      refine hclear.trans (clearFrom_of_lanes (w := 1) ?_)
      rintro k hk (h | ⟨h, -⟩)
      · obtain rfl : k = 0 := by omega
        exact hne h
      · cases h
    apply does_ite
    · intro hzero
      have hij : ¬j < i := fun hlt => hend.nonzero j hlt hzero
      exact does_pure ⟨rfl, hclear'.mono (by omega)⟩
    · intro hzero
      have hij : j ≠ i := fun heq => hzero (heq ▸ hend.zero)
      exact hnext _ _ ⟨rfl, by omega, hclear'⟩ (by omega)
  · intro j m' _ htest
    cases htest

theorem Plain.strlen_does (hend : EndsAt m s i) (hturns : i < turns) :
    Does (Plain.strlen turns s) (fun _ => True) m (Measured m i) := by
  apply does_loop (fun j m' => m' = m ∧ j ≤ i) (fun j => i - j) _ _ ⟨rfl, Nat.zero_le i⟩ (by omega)
  · rintro j m' next ⟨rfl, hj⟩ - hnext
    apply does_bind
    apply does_byte trivial
    apply does_ite
    · intro hzero
      have hij : ¬j < i := fun hlt => hend.nonzero j hlt hzero
      exact does_pure ⟨by omega, rfl⟩
    · intro hne
      have hij : j ≠ i := fun heq => hne (heq ▸ hend.zero)
      exact hnext _ _ ⟨rfl, by omega⟩ (by omega)
  · intro j m' _ htest
    cases htest

end Bytewise

/-! ## Every variant returns what the bytewise search returns -/

/-- What a search is to return is one answer. -/
theorem FirstIn.unique {S : ℕ → Prop} {b finish : ℕ} {v v' : Option ℕ} (h : FirstIn S b finish v)
    (h' : FirstIn S b finish v') : v = v' := by
  cases v with
  | none =>
    cases v' with
    | none => rfl
    | some q' => exact absurd h'.2 (h q' h'.1.1 h'.1.2.1)
  | some q =>
    cases v' with
    | none => exact absurd h.2 (h' q h.1.1 h.1.2.1)
    | some q' =>
      have hle := h.1.2.2.le h'.1.1 h'.2
      have hge := h'.1.2.2.le h.1.1 h.2
      rw [Nat.le_antisymm hle hge]

theorem returns_of_searched {m : Memory} {R : Load → Prop} {S : ℕ → Prop}
    {x : Program (Option ℕ)} {b finish : ℕ}
    {v : Option ℕ} (h : Does x R m (Searched S b finish m)) (hv : FirstIn S b finish v) :
    Returns x m v m := by
  obtain ⟨v', m', ls, hx, ⟨rfl, hv'⟩, -⟩ := h
  rw [hv'.unique hv] at hx
  exact ⟨ls, hx⟩

theorem stopsAt_false (m : Memory) (c : UInt8) : StopsAt m c false = fun a => m a = c := by
  funext a
  simp [StopsAt]

/-- In every variant `memchr` returns the first occurrence among `n` bytes and null where there is
none, `strchr` the first at or before the terminator, and `strlen` the index of the terminator. What
is read lies below the last page of the address space; the `n` bytes need not. -/
theorem searches_eq_plain (V : Variant) (m : Memory) (turns s : ℕ) :
    (∀ c n, n < turns → (∀ p, Reads (fun a => m a = c) s (s + n) p → V.Low p) →
      ∃ v, FirstIn (fun a => m a = c) s (s + n) v ∧ Returns (Plain.memchr turns s c n) m v m ∧
        Returns (V.memchr turns s c n) m v m) ∧
    ∀ i, EndsAt m s i → V.Low (s + i) → i + 1 < turns →
      (∀ c, ∃ v, FirstIn (fun a => m a = c) s (s + i + 1) v ∧
        Returns (Plain.strchr turns s c) m v m ∧ Returns (V.strchr turns s c) m v m) ∧
      Returns (Plain.strlen turns s) m i m ∧ Returns (V.strlen turns s) m i m := by
  constructor
  · intro c n hturns hlow
    have hplain := Plain.memchr_does (m := m) (s := s) (c := c) hturns
    have hfast : Does (V.memchr turns s c n) (PagesRead (StopsAt m c false) s (s + n)) m
        (Searched (StopsAt m c false) s (s + n) m) := by
      refine memchr_does V ?_ (fun p hp => hp.2.1) (by omega) (by omega)
      rw [stopsAt_false]
      exact hlow
    obtain ⟨v, m', ls, -, ⟨-, hv⟩, -⟩ := id hplain
    refine ⟨v, ?_, returns_of_searched hplain hv, returns_of_searched hfast hv⟩
    rwa [stopsAt_false] at hv
  · intro i hend hlow hturns
    refine ⟨?_, ?_, ?_⟩
    · intro c
      have hplain := Plain.strchr_does (c := c) hend (Nat.lt_of_succ_lt hturns)
      have hfast := strchr_does (c := c) V hend hlow hturns
      obtain ⟨v, m', ls, -, ⟨-, hv⟩, -⟩ := id hplain
      refine ⟨v, ?_, returns_of_searched hplain hv, returns_of_searched hfast hv⟩
      rwa [stopsAt_false] at hv
    · exact (Plain.strlen_does hend (Nat.lt_of_succ_lt hturns)).returns
    · exact (strlen_does V hend hlow (Nat.lt_of_succ_lt hturns)).returns

/-- A string whose terminator is the first byte of its second page. -/
theorem searches_eq_plain_secondPage :
    EndsAt (fun a => if a = 8192 then 0 else 1) 8100 92 ∧
      Returns (Variant.avx2.strlen 100 8100) (fun a => if a = 8192 then 0 else 1) 92
        (fun a => if a = 8192 then 0 else 1) := by
  have hend : EndsAt (fun a => if a = 8192 then 0 else 1) 8100 92 := by
    refine ⟨rfl, ?_⟩
    intro j hj
    rw [if_neg (by omega)]
    decide
  exact ⟨hend, ((searches_eq_plain .avx2 _ 100 8100).2 92 hend (by unfold Variant.Low; decide)
    (by decide)).2.2⟩

end OpenkalMusl.Strings
