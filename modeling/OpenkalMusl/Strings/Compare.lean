import OpenkalMusl.Strings.Masks

/-!
# Comparing memory and strings

`memcmp` and `strcmp` in every variant of `okm_string.c`. A vector of each argument is compared, and
the mask of the lanes that stop the comparison gives the first of them; four vectors are tested
together before the one that stops is looked for. A tail is compared by a vector that ends with it
and overlaps what was compared before. `strcmp` looks ahead only within the pages that both strings
have reached, and goes on from the end of the nearer one.

Every test goes forward from bytes known not to stop the comparison. So the invariant is the same
throughout: no byte before the position stops it.

## Main definitions

* `Strings.Variant.memcmp`, `Strings.Variant.strcmp`

## Main results

* `Strings.memcmp_does`, `Strings.strcmp_does`: what each returns, and the bytes it loads
* `Strings.comparisons_eq_plain`: every variant returns the difference of the first
  bytes that differ
-/

namespace OpenkalMusl.Strings

open Bytes Bytes.Program

/-! ## The steps -/

/-- `*l - *r`. -/
def minusAt (l r : ℕ) : Program ℤ := do
  let a ← byte l
  let b ← byte r
  pure (minus a b)

/-- Returns from the caller with the difference of the bytes of the first lane of the mask, for a
vector at `i`, if there is one. -/
def leaveAt (N : Narrowing) (mask : BitVec N.register) (l r i : ℕ) (next : Program ℤ) : Program ℤ :=
  if mask ≠ 0#N.register then minusAt (l + (i + N.first mask)) (r + (i + N.first mask)) else next

/-- `EQ16` and `EQ32` of the vectors at `i`. -/
def equalAt (N : Narrowing) (l r i : ℕ) : Program (Vec N.width) := do
  let a ← load N.width (l + i)
  let b ← load N.width (r + i)
  pure (Vec.same a b)

/-- `DIFF16` and `DIFF32`. -/
def diff (N : Narrowing) (l r i : ℕ) (next : Program ℤ) : Program ℤ := do
  let e ← equalAt N l r i
  leaveAt N (N.full &&& ~~~N.mask e) l r i next

/-- The first byte in which a word of each argument differs, if there is one. -/
def wordDiff (k l r i : ℕ) (next : Program ℤ) : Program ℤ := do
  let a ← load k (l + i)
  let b ← load k (r + i)
  let j := i + (little a ^^^ little b).ctz.toNat / 8
  if little a ≠ little b then minusAt (l + j) (r + j) else next

/-- A byte at a time, the last of `cmp_small`. -/
def cmpBytes (turns l r n : ℕ) : Program ℤ :=
  loop (fun x : ℕ × ℕ × ℕ => x.1 ≠ 0)
    (fun x next => do
      let a ← byte x.2.1
      let b ← byte x.2.2
      if a = b then next (x.1 - 1, x.2.1 + 1, x.2.2 + 1) else minusAt x.2.1 x.2.2)
    (fun _ => pure 0) turns (n, l, r)

/-- Words are compared in this way only where the first byte is the least significant. -/
def cmpSmall (order : ByteOrder) (turns l r n : ℕ) : Program ℤ :=
  if order = .little ∧ 8 ≤ n then wordDiff 8 l r 0 <| wordDiff 8 l r (n - 8) <| pure 0
  else if order = .little ∧ 4 ≤ n then wordDiff 4 l r 0 <| wordDiff 4 l r (n - 4) <| pure 0
  else cmpBytes turns l r n

/-! ## `memcmp` -/

/-- The vectors at several positions compared together: all ones in the lanes that agree in each. -/
def equalAll (N : Narrowing) (l r i : ℕ) (js : List ℕ) : Program (Vec N.width) := do
  let e ← equalAt N l r i
  js.foldlM (fun e j => do
    let e' ← equalAt N l r j
    pure (Vec.both e e')) e

/-- The vectors at several positions, one after the other. -/
def diffs (N : Narrowing) (l r : ℕ) (is : List ℕ) (next : Program ℤ) : Program ℤ :=
  is.foldr (diff N l r) next

/-- Several vectors tested once; the one that differs is found afterwards. -/
def together (N : Narrowing) (l r i : ℕ) (js : List ℕ) (next : Program ℤ) : Program ℤ := do
  let e ← equalAll N l r i js
  if N.mask e ≠ N.full then diffs N l r (i :: js) next else next

/-- The loops of `cmp16` and `cmp32`: four vectors, then one, then the tail. The index is a machine
word. -/
def cmpBlocks (N : Narrowing) (turns l r n : ℕ) : Program ℤ :=
  let w := N.width
  loop (fun i => (i + 4 * w) % 2 ^ 64 ≤ n)
    (fun i next => together N l r i [i + w, i + 2 * w, i + 3 * w] (next (i + 4 * w)))
    (fun i =>
      loop (fun i => (i + w) % 2 ^ 64 ≤ n)
        (fun i next => diff N l r i (next (i + w)))
        (fun i => if i < n then diff N l r (n - w) (pure 0) else pure 0) turns i)
    turns 0

def cmp16 (N : Narrowing) (turns l r n : ℕ) : Program ℤ :=
  if n ≤ 32 then diffs N l r [0, n - 16] (pure 0) else cmpBlocks N turns l r n

def cmp32 (turns l r n : ℕ) : Program ℤ :=
  if n ≤ 64 then together avx2 l r 0 [n - 32] (pure 0)
  else if n ≤ 128 then together avx2 l r 0 [32, n - 64, n - 32] (pure 0)
  else if n ≤ 256 then
    together avx2 l r 0 [32, 64, 96, n - 128, n - 96, n - 64, n - 32] (pure 0)
  else cmpBlocks avx2 turns l r n

def memcmp16 (N : Narrowing) (turns l r n : ℕ) : Program ℤ :=
  if n < 16 then cmpSmall .little turns l r n else cmp16 N turns l r n

def memcmp32 (turns l r n : ℕ) : Program ℤ :=
  if n < 16 then cmpSmall .little turns l r n
  else if n ≤ 32 then diffs sse2 l r [0, n - 16] (pure 0)
  else cmp32 turns l r n

def memcmpWords (order : ByteOrder) (turns l r n : ℕ) : Program ℤ :=
  match order with
  | .little =>
    loop (fun x : ℕ × ℕ × ℕ => 16 ≤ x.1)
      (fun x next => wordDiff 8 x.2.1 x.2.2 0 (next (x.1 - 8, x.2.1 + 8, x.2.2 + 8)))
      (fun x => cmpSmall .little turns x.2.1 x.2.2 x.1) turns (n, l, r)
  | .big => cmpSmall .big turns l r n

def Variant.memcmp (V : Variant) (turns l r n : ℕ) : Program ℤ :=
  match V with
  | .avx2 => memcmp32 turns l r n
  | .sse2 => memcmp16 Strings.sse2 turns l r n
  | .neon => memcmp16 Strings.neon turns l r n
  | .words order _ => memcmpWords order turns l r n

/-! ## `strcmp` -/

/-- The mask of `STEP16`: the lanes in which the strings differ or the first ends. -/
def stop16 (N : Narrowing) (a b : Vec N.width) : BitVec N.register :=
  N.full &&& (~~~N.mask (Vec.same a b) ||| N.mask (Vec.same a (Vec.splat N.width 0)))

/-- The mask of `STEP32`: a lane of `min(a, a == b)` is zero where the strings differ or the first
ends. -/
def stop32 (N : Narrowing) (a b : Vec N.width) : BitVec N.register :=
  N.mask (Vec.same (Vec.least a (Vec.same a b)) (Vec.splat N.width 0))

/-- `STEP16` and `STEP32`, which find the lanes that stop in ways of their own. -/
def step (N : Narrowing) (stop : Vec N.width → Vec N.width → BitVec N.register) (l r i : ℕ)
    (next : Program ℤ) : Program ℤ := do
  let a ← load N.width (l + i)
  let b ← load N.width (r + i)
  leaveAt N (stop a b) l r i next

/-- The loops over the room that both pages have: four vectors, then one, then what is left of the
room in a way of its own. The state is the room and the two pointers. -/
def strcmpRoom (N : Narrowing) (stop : Vec N.width → Vec N.width → BitVec N.register) (turns : ℕ)
    (rest : ℕ × ℕ × ℕ → Program ℤ) (x : ℕ × ℕ × ℕ) : Program ℤ :=
  let w := N.width
  loop (fun x : ℕ × ℕ × ℕ => 4 * w ≤ x.1)
    (fun x next => do
      let a0 ← load w x.2.1
      let a1 ← load w (x.2.1 + w)
      let a2 ← load w (x.2.1 + 2 * w)
      let a3 ← load w (x.2.1 + 3 * w)
      let b0 ← load w x.2.2
      let b1 ← load w (x.2.2 + w)
      let b2 ← load w (x.2.2 + 2 * w)
      let b3 ← load w (x.2.2 + 3 * w)
      let t := Vec.least
        (Vec.least (Vec.least a0 (Vec.same a0 b0)) (Vec.least a1 (Vec.same a1 b1)))
        (Vec.least (Vec.least a2 (Vec.same a2 b2)) (Vec.least a3 (Vec.same a3 b3)))
      let x' := (x.1 - 4 * w, x.2.1 + 4 * w, x.2.2 + 4 * w)
      if N.mask (Vec.same t (Vec.splat w 0)) ≠ 0#N.register then
        step N stop x.2.1 x.2.2 0 <| step N stop x.2.1 x.2.2 w <|
          step N stop x.2.1 x.2.2 (2 * w) <| step N stop x.2.1 x.2.2 (3 * w) <| next x'
      else next x')
    (fun x =>
      loop (fun x : ℕ × ℕ × ℕ => w ≤ x.1)
        (fun x next => step N stop x.2.1 x.2.2 0 (next (x.1 - w, x.2.1 + w, x.2.2 + w)))
        rest turns x)
    turns x

/-- The last bytes of the room, a byte at a time. -/
def strcmpBytes (turns : ℕ) (again : ℕ × ℕ → Program ℤ) (x : ℕ × ℕ × ℕ) : Program ℤ :=
  loop (fun x : ℕ × ℕ × ℕ => x.1 ≠ 0)
    (fun x next => do
      let a ← byte x.2.1
      let b ← byte x.2.2
      if a ≠ b ∨ a = 0 then minusAt x.2.1 x.2.2 else next (x.1 - 1, x.2.1 + 1, x.2.2 + 1))
    (fun x => again x.2) turns x

/-- The last bytes of the room, a word at a time until one differs or ends, and then a byte at a
time. -/
def strcmpTail (turns : ℕ) (again : ℕ × ℕ → Program ℤ) (x : ℕ × ℕ × ℕ) : Program ℤ :=
  loop (fun x : ℕ × ℕ × ℕ => 8 ≤ x.1)
    (fun x next => do
      let a ← load 8 x.2.1
      let b ← load 8 x.2.2
      if little a ≠ little b ∨ hasZero (little a) ≠ 0#(8 * 8) then strcmpBytes turns again x
      else next (x.1 - 8, x.2.1 + 8, x.2.2 + 8))
    (strcmpBytes turns again) turns x

/-- The room up to the end of the nearer page. -/
def room (l r : ℕ) : ℕ := if toPageEnd l < toPageEnd r then toPageEnd l else toPageEnd r

/-- The outer loop of `strcmp16` and `strcmp32`: page by page. -/
def strcmpLoop (N : Narrowing) (stop : Vec N.width → Vec N.width → BitVec N.register)
    (tail : (ℕ × ℕ → Program ℤ) → ℕ × ℕ × ℕ → Program ℤ) (turns l r : ℕ) : Program ℤ :=
  loop (fun _ => true)
    (fun x again => strcmpRoom N stop turns (tail again) (room x.1 x.2, x.1, x.2))
    (fun _ => fault) turns (l, r)

def strcmp16 (N : Narrowing) (turns l r : ℕ) : Program ℤ :=
  strcmpLoop N (stop16 N) (strcmpBytes turns) turns l r

/-- One vector first, where it lies in both pages, and then the first string from a multiple of the
vector on. -/
def strcmp32 (turns l r : ℕ) : Program ℤ :=
  let pages := strcmpLoop avx2 (stop32 avx2) (strcmpTail turns) turns
  if l % 32 ≠ 0 ∧ 32 ≤ toPageEnd l ∧ 32 ≤ toPageEnd r then
    step avx2 (stop32 avx2) l r 0 <| pages (l + (32 - l % 32)) (r + (32 - l % 32))
  else pages l r

/-- The first four vectors where they are, when both pages hold them. -/
def strcmpFirst (N : Narrowing) (stop : Vec N.width → Vec N.width → BitVec N.register)
    (rest : ℕ → ℕ → Program ℤ) (l r : ℕ) : Program ℤ :=
  let w := N.width
  if 4 * w ≤ toPageEnd l ∧ 4 * w ≤ toPageEnd r then
    step N stop l r 0 <| step N stop l r w <| step N stop l r (2 * w) <|
      step N stop l r (3 * w) <| rest (l + 4 * w) (r + 4 * w)
  else rest l r

def strcmp16First (N : Narrowing) (turns l r : ℕ) : Program ℤ :=
  strcmpFirst N (stop16 N) (strcmp16 N turns) l r

def strcmp32First (turns l r : ℕ) : Program ℤ :=
  strcmpFirst avx2 (stop32 avx2) (strcmp32 turns) l r

def strcmpWords (turns l r : ℕ) : Program ℤ :=
  loop (fun _ => true)
    (fun x next => do
      let a ← byte x.1
      let b ← byte x.2
      if a = b ∧ a ≠ 0 then next (x.1 + 1, x.2 + 1) else minusAt x.1 x.2)
    (fun _ => fault) turns (l, r)

def Variant.strcmp (V : Variant) (turns l r : ℕ) : Program ℤ :=
  match V with
  | .avx2 => strcmp32First turns l r
  | .sse2 => strcmp16First Strings.sse2 turns l r
  | .neon => strcmp16First Strings.neon turns l r
  | .words _ _ => strcmpWords turns l r

/-! ## What the steps do -/

/-- No position before `i` stops. -/
def Clear (P : ℕ → Prop) (i : ℕ) : Prop := ∀ j < i, ¬P j

/-- The loads within the `n` bytes from `l` on may be made. -/
def Readable (R : Load → Prop) (l n : ℕ) : Prop := ∀ p w, l ≤ p → p + w ≤ l + n → R ⟨p, w⟩

section Steps

variable {N : Narrowing} {R : Load → Prop} {m : Memory} {Q : ℤ → Memory → Prop} {P : ℕ → Prop}
  {l r i n w : ℕ} {next : Program ℤ}

theorem clear_zero : Clear P 0 := fun j hj => absurd hj (Nat.not_lt_zero j)

theorem Clear.mono {i' : ℕ} (h : Clear P i) (hle : i' ≤ i) : Clear P i' :=
  fun j hj => h j (Nat.lt_of_lt_of_le hj hle)

/-- A vector none of whose lanes stops, at a position not beyond those known. -/
theorem Clear.extend (h : Clear P i) (i' : ℕ) (hle : i' ≤ i) (hv : ∀ j < w, ¬P (i' + j)) :
    Clear P (i' + w) := by
  intro k hk
  by_cases hki : k < i'
  · exact h k (by omega)
  · have hlane := hv (k - i') (by omega)
    rwa [Nat.add_sub_cancel' (by omega)] at hlane

/-- A position that stops is not before one that is clear. -/
theorem Clear.le {k : ℕ} (h : Clear P i) (hk : P k) : i ≤ k := by
  by_contra hcon
  exact h k (by omega) hk

theorem Readable.vec (h : Readable R l n) (hle : i + w ≤ n) : R ⟨l + i, w⟩ :=
  h _ _ (by omega) (by omega)

theorem Readable.byte (h : Readable R l n) (hi : i < n) : R ⟨l + i, 1⟩ := h.vec hi

theorem minusAt_does (hl : R ⟨l, 1⟩) (hr : R ⟨r, 1⟩) (h : Q (minus (m l) (m r)) m) :
    Does (minusAt l r) R m Q := by
  apply does_bind
  apply does_byte hl
  apply does_bind
  apply does_byte hr
  exact does_pure h

/-- A mask of the lanes that stop: the function returns at the first, or goes on with the vector
clear. -/
theorem leaveAt_does {mask : BitVec N.register} (hmask : N.Marks mask (fun j => P (i + j)))
    (hclear : Clear P i)
    (hfound : ∀ k < i + N.width, P k → Clear P k →
      R ⟨l + k, 1⟩ ∧ R ⟨r + k, 1⟩ ∧ Q (minus (m (l + k)) (m (r + k))) m)
    (hnext : Clear P (i + N.width) → Does next R m Q) :
    Does (leaveAt N mask l r i next) R m Q := by
  apply does_ite
  · intro hne
    obtain ⟨hlt, hP, hbefore⟩ := hmask.first_spec hne
    have hfirst : Clear P (i + N.first mask) := hclear.extend _ le_rfl hbefore
    obtain ⟨hl, hr, hQ⟩ := hfound _ (Nat.add_lt_add_left hlt i) hP hfirst
    exact minusAt_does hl hr hQ
  · intro hzero
    apply hnext
    rw [ne_eq, not_not] at hzero
    rw [hzero] at hmask
    exact hclear.extend _ le_rfl (fun j hj => hmask.none_of_zero hj)

theorem equalAt_does {Q : Vec N.width → Memory → Prop} (hl : Readable R l n) (hr : Readable R r n)
    (hle : i + N.width ≤ n)
    (h : Q (Vec.same (m.vec N.width (l + i)) (m.vec N.width (r + i))) m) :
    Does (equalAt N l r i) R m Q := by
  apply does_bind
  apply does_load (hl.vec hle)
  apply does_bind
  apply does_load (hr.vec hle)
  exact does_pure h

end Steps

/-! ## What `memcmp` does -/

/-- The arguments differ at a position. -/
def Differ (m : Memory) (l r j : ℕ) : Prop := m (l + j) ≠ m (r + j)

/-- What a comparison of `n` bytes is to return: the difference of the first bytes that differ, and
zero where none do. -/
def FirstDifference (m : Memory) (l r n : ℕ) (v : ℤ) : Prop :=
  (∃ k < n, Differ m l r k ∧ Clear (Differ m l r) k ∧ v = minus (m (l + k)) (m (r + k))) ∨
    Clear (Differ m l r) n ∧ v = 0

/-- The comparison is done, and memory as it was. -/
def Compared (m : Memory) (l r n : ℕ) (v : ℤ) (m' : Memory) : Prop :=
  m' = m ∧ FirstDifference m l r n v

section Memcmp

variable {N : Narrowing} {R : Load → Prop} {m : Memory} {l r i n turns : ℕ} {next : Program ℤ}

theorem tells_equal (m : Memory) (l r i w : ℕ) :
    (Vec.same (m.vec w (l + i)) (m.vec w (r + i))).Tells (fun j => ¬Differ m l r (i + j)) := by
  apply Vec.tells_same
  intro j
  simp only [Memory.vec, Differ, Nat.add_assoc, ne_eq, not_not]

theorem compared_of_first {k : ℕ} (hk : k < n) (hP : Differ m l r k)
    (hclear : Clear (Differ m l r) k) : Compared m l r n (minus (m (l + k)) (m (r + k))) m :=
  ⟨rfl, Or.inl ⟨k, hk, hP, hclear, rfl⟩⟩

theorem compared_of_clear (h : Clear (Differ m l r) n) : Compared m l r n 0 m :=
  ⟨rfl, Or.inr ⟨h, rfl⟩⟩

theorem diff_does (hl : Readable R l n) (hr : Readable R r n) (hle : i + N.width ≤ n)
    (hclear : Clear (Differ m l r) i)
    (hnext : Clear (Differ m l r) (i + N.width) → Does next R m (Compared m l r n)) :
    Does (diff N l r i next) R m (Compared m l r n) := by
  apply does_bind
  apply equalAt_does hl hr hle
  have hmask := (N.marks_mask (tells_equal m l r i N.width)).compl
  simp only [not_not] at hmask
  apply leaveAt_does hmask hclear _ hnext
  intro k hk hP hbefore
  exact ⟨hl.byte (by omega), hr.byte (by omega), compared_of_first (by omega) hP hbefore⟩

theorem wordDiff_does {k : ℕ} (hl : Readable R l n) (hr : Readable R r n) (hle : i + k ≤ n)
    (hclear : Clear (Differ m l r) i)
    (hnext : Clear (Differ m l r) (i + k) → Does next R m (Compared m l r n)) :
    Does (wordDiff k l r i next) R m (Compared m l r n) := by
  apply does_bind
  apply does_load (hl.vec hle)
  apply does_bind
  apply does_load (hr.vec hle)
  apply does_ite
  · intro hne
    obtain ⟨j, hj, hdiff, hbefore⟩ := first_difference hne
    have hjlt := j.isLt
    rw [hj]
    have hP : Differ m l r (i + j) := by
      simpa only [Differ, Memory.vec, Nat.add_assoc] using hdiff
    have hfirst : Clear (Differ m l r) (i + j) := by
      apply hclear.extend _ le_rfl
      intro j' hj' hP'
      apply hP'
      have heq := hbefore ⟨j', by omega⟩ hj'
      simpa only [Memory.vec, Nat.add_assoc] using heq
    exact minusAt_does (hl.byte (by omega)) (hr.byte (by omega))
      (compared_of_first (by omega) hP hfirst)
  · intro heq
    rw [ne_eq, not_not] at heq
    apply hnext
    apply hclear.extend _ le_rfl
    intro j hj hP
    apply hP
    have hbyte := little_inj heq ⟨j, hj⟩
    simpa only [Memory.vec, Nat.add_assoc] using hbyte

theorem cmpBytes_does (hl : Readable R l n) (hr : Readable R r n) (hturns : n < turns) :
    Does (cmpBytes turns l r n) R m (Compared m l r n) := by
  apply does_loop (fun x m' => m' = m ∧ x.1 ≤ n ∧ x.2.1 = l + (n - x.1) ∧ x.2.2 = r + (n - x.1) ∧
      Clear (Differ m l r) (n - x.1)) (fun x => x.1)
  · rintro ⟨k, p, q⟩ m' next ⟨rfl, hk, hp, hq, hclear⟩ htest hnext
    dsimp only at hk hp hq hclear ⊢
    have htest : k ≠ 0 := of_decide_eq_true htest
    subst hp hq
    apply does_bind
    apply does_byte (hl.byte (by omega))
    apply does_bind
    apply does_byte (hr.byte (by omega))
    apply does_ite
    · intro heq
      apply hnext
      · refine ⟨rfl, by dsimp only; omega, by dsimp only; omega, by dsimp only; omega, ?_⟩
        have hnew := hclear.extend (w := 1) _ le_rfl (by
          intro j hj hP
          obtain rfl : j = 0 := by omega
          exact hP heq)
        exact hnew.mono (by dsimp only; omega)
      · change k - 1 < k
        omega
    · intro hne
      exact minusAt_does (hl.byte (by omega)) (hr.byte (by omega))
        (compared_of_first (by omega) hne hclear)
  · rintro ⟨k, p, q⟩ m' ⟨rfl, hk, hp, hq, hclear⟩ htest
    dsimp only at hk hp hq hclear ⊢
    have htest : ¬k ≠ 0 := of_decide_eq_false htest
    exact does_pure (compared_of_clear (hclear.mono (by omega)))
  · refine ⟨rfl, le_rfl, by dsimp only; omega, by dsimp only; omega, ?_⟩
    exact clear_zero.mono (by dsimp only; omega)
  · exact hturns

theorem cmpSmall_does (order : ByteOrder) (hl : Readable R l n) (hr : Readable R r n)
    (hn : order = .little → n < 16) (hturns : n < turns) :
    Does (cmpSmall order turns l r n) R m (Compared m l r n) := by
  apply does_ite
  · rintro ⟨horder, h8⟩
    have hn := hn horder
    apply wordDiff_does hl hr (by omega) clear_zero
    intro hclear
    apply wordDiff_does hl hr (by omega) (hclear.mono (by omega))
    intro hclear
    exact does_pure (compared_of_clear (hclear.mono (by omega)))
  intro h8
  apply does_ite
  · rintro ⟨horder, h4⟩
    have hlt : n < 8 := by
      by_contra hcon
      exact h8 ⟨horder, by omega⟩
    apply wordDiff_does hl hr (by omega) clear_zero
    intro hclear
    apply wordDiff_does hl hr (by omega) (hclear.mono (by omega))
    intro hclear
    exact does_pure (compared_of_clear (hclear.mono (by omega)))
  · intro _
    exact cmpBytes_does hl hr hturns

/-- Vectors at positions none of which is beyond the end of the one before. -/
def Overlapping (w n : ℕ) : ℕ → List ℕ → Prop
  | reach, [] => n ≤ reach
  | reach, i :: is => i ≤ reach ∧ Overlapping w n (i + w) is

/-- Each vector ends within the arguments. -/
def Inside (w n : ℕ) (is : List ℕ) : Prop := ∀ i ∈ is, i + w ≤ n

theorem diffs_does {k : ℕ} {is : List ℕ} (hl : Readable R l n) (hr : Readable R r n)
    (hin : Inside N.width n is) {reach : ℕ} (hover : Overlapping N.width k reach is)
    (hclear : Clear (Differ m l r) reach)
    (hnext : Clear (Differ m l r) k → Does next R m (Compared m l r n)) :
    Does (diffs N l r is next) R m (Compared m l r n) := by
  induction is generalizing reach with
  | nil => exact hnext (hclear.mono hover)
  | cons i is ih =>
    have hi := hin i List.mem_cons_self
    apply diff_does hl hr hi (hclear.mono hover.1)
    intro hclear
    exact ih (fun j hj => hin j (List.mem_cons_of_mem i hj)) hover.2 hclear

/-- Vectors compared together: their lanes are all ones where every one of them agrees. -/
theorem equalAll_does {Q : Vec N.width → Memory → Prop} {js : List ℕ} (hl : Readable R l n)
    (hr : Readable R r n) (hin : Inside N.width n (i :: js))
    (h : ∀ e : Vec N.width, e.Tells (fun k => ∀ j ∈ i :: js, ¬Differ m l r (j + k)) → Q e m) :
    Does (equalAll N l r i js) R m Q := by
  apply does_bind
  apply equalAt_does hl hr (hin i List.mem_cons_self)
  -- the vectors that have been compared are collected in `is`
  suffices hfold : ∀ (js is : List ℕ) (e : Vec N.width), Inside N.width n js →
      e.Tells (fun k => ∀ j ∈ is, ¬Differ m l r (j + k)) →
      (∀ e' : Vec N.width, e'.Tells (fun k => ∀ j ∈ is ++ js, ¬Differ m l r (j + k)) → Q e' m) →
      Does (js.foldlM (fun e j => do
        let e' ← equalAt N l r j
        pure (Vec.both e e')) e) R m Q by
    refine hfold js [i] _ (fun j hj => hin j (List.mem_cons_of_mem i hj)) ?_ h
    simpa only [List.mem_singleton, forall_eq] using tells_equal m l r i N.width
  intro js
  induction js with
  | nil =>
    intro is e _ he hQ
    rw [List.append_nil] at hQ
    exact does_pure (hQ e he)
  | cons j js ih =>
    intro is e hin he hQ
    rw [List.foldlM_cons]
    apply does_bind
    apply does_bind
    apply equalAt_does hl hr (hin j List.mem_cons_self)
    apply does_pure
    refine ih (is ++ [j]) _ (fun j' hj' => hin j' (List.mem_cons_of_mem j hj')) ?_ ?_
    · have hboth := he.both (tells_equal m l r j N.width)
      simpa only [List.mem_append, List.mem_singleton, or_imp, forall_and, forall_eq] using hboth
    · rw [List.append_assoc, List.singleton_append]
      exact hQ

theorem clear_of_agree {k : ℕ} {is : List ℕ} {w reach : ℕ} (hover : Overlapping w k reach is)
    (hclear : Clear (Differ m l r) reach)
    (h : ∀ j < w, ∀ i ∈ is, ¬Differ m l r (i + j)) : Clear (Differ m l r) k := by
  induction is generalizing reach with
  | nil => exact hclear.mono hover
  | cons i is ih =>
    refine ih hover.2 (hclear.extend i hover.1 fun j hj => h j hj i List.mem_cons_self) ?_
    intro j hj i' hi'
    exact h j hj i' (List.mem_cons_of_mem i hi')

theorem together_does {k : ℕ} {js : List ℕ} (hl : Readable R l n) (hr : Readable R r n)
    (hin : Inside N.width n (i :: js)) {reach : ℕ} (hover : Overlapping N.width k reach (i :: js))
    (hclear : Clear (Differ m l r) reach)
    (hnext : Clear (Differ m l r) k → Does next R m (Compared m l r n)) :
    Does (together N l r i js next) R m (Compared m l r n) := by
  apply does_bind
  apply equalAll_does hl hr hin
  intro e he
  apply does_ite
  · intro _
    exact diffs_does hl hr hin hover hclear hnext
  · intro hfull
    rw [ne_eq, not_not] at hfull
    have hmask := N.marks_mask he
    rw [hfull] at hmask
    exact hnext (clear_of_agree hover hclear (fun j hj => hmask.all_of_full hj))

theorem cmpBlocks_does (hl : Readable R l n) (hr : Readable R r n) (hpos : 0 < N.width)
    (hlo : N.width ≤ n) (hspace : n + 4 * N.width < 2 ^ 64) (hturns : n < turns) :
    Does (cmpBlocks N turns l r n) R m (Compared m l r n) := by
  apply does_loop (fun i m' => m' = m ∧ i ≤ n ∧ Clear (Differ m l r) i) (fun i => n - i)
  · rintro i m' next ⟨rfl, hi, hclear⟩ htest hnext
    have htest : i + 4 * N.width ≤ n := by
      have htest := of_decide_eq_true htest
      omega
    refine together_does (k := i + 4 * N.width) hl hr ?_ ?_ hclear ?_
    · simp only [Inside, List.forall_mem_cons]
      refine ⟨by omega, by omega, by omega, by omega, ?_⟩
      intro j hj
      cases hj
    · simp only [Overlapping]
      omega
    · intro hclear'
      exact hnext _ _ ⟨rfl, htest, hclear'⟩ (by omega)
  · rintro i m' hi htest
    apply does_loop (fun i m' => m' = m ∧ i ≤ n ∧ Clear (Differ m l r) i) (fun i => n - i)
    · rintro i m' next ⟨rfl, hi, hclear⟩ htest hnext
      have htest : i + N.width ≤ n := by
        have htest := of_decide_eq_true htest
        omega
      apply diff_does hl hr htest hclear
      intro hclear
      exact hnext _ _ ⟨rfl, htest, hclear⟩ (by omega)
    · rintro i m' ⟨rfl, hi, hclear⟩ htest
      have htest : n < i + N.width := by
        have htest := of_decide_eq_false htest
        omega
      apply does_ite
      · intro _
        apply diff_does hl hr (by omega) (hclear.mono (by omega))
        intro hclear
        exact does_pure (compared_of_clear (hclear.mono (by omega)))
      · intro _
        exact does_pure (compared_of_clear (hclear.mono (by omega)))
    · exact hi
    · omega
  · exact ⟨rfl, by omega, clear_zero⟩
  · omega

/-- The classes of length that are compared by two vectors, one after the other. -/
theorem diffEnds_does {e : ℕ} (hl : Readable R l n) (hr : Readable R r n) (he : e + N.width = n)
    (hhi : n ≤ 2 * N.width) : Does (diffs N l r [0, e] (pure 0)) R m (Compared m l r n) := by
  refine diffs_does (k := n) hl hr ?_ ?_ clear_zero ?_
  · simp only [Inside, List.forall_mem_cons]
    refine ⟨by omega, by omega, ?_⟩
    intro j hj
    cases hj
  · simp only [Overlapping]
    omega
  · intro hclear
    exact does_pure (compared_of_clear hclear)

theorem cmp16_does (hw : N.width = 16) (hl : Readable R l n) (hr : Readable R r n) (hlo : 16 ≤ n)
    (hspace : n + 128 < 2 ^ 64) (hturns : n < turns) :
    Does (cmp16 N turns l r n) R m (Compared m l r n) := by
  apply does_ite
  · intro h
    exact diffEnds_does hl hr (by omega) (by omega)
  · intro h
    exact cmpBlocks_does hl hr (by omega) (by omega) (by omega) hturns

/-- A class of length that is compared by several vectors together. -/
theorem togetherAll_does {js : List ℕ} (hl : Readable R l n) (hr : Readable R r n)
    (hin : Inside 32 n (0 :: js)) (hover : Overlapping 32 n 0 (0 :: js)) :
    Does (together avx2 l r 0 js (pure 0)) R m (Compared m l r n) :=
  together_does hl hr hin hover clear_zero fun hclear => does_pure (compared_of_clear hclear)

theorem cmp32_does (hl : Readable R l n) (hr : Readable R r n) (hlo : 32 < n)
    (hspace : n + 128 < 2 ^ 64) (hturns : n < turns) :
    Does (cmp32 turns l r n) R m (Compared m l r n) := by
  apply does_ite
  · intro h64
    apply togetherAll_does hl hr
    · simp [Inside]
      omega
    · simp [Overlapping]
      omega
  intro h64
  apply does_ite
  · intro h128
    apply togetherAll_does hl hr
    · simp [Inside]
      omega
    · simp [Overlapping]
      omega
  intro h128
  apply does_ite
  · intro h256
    apply togetherAll_does hl hr
    · simp [Inside]
      omega
    · simp [Overlapping]
      omega
  · intro h256
    exact cmpBlocks_does hl hr (by decide) (Nat.le_of_lt hlo) hspace hturns

/-- What a comparison from a position on says of the whole, where the bytes before it agree. -/
theorem firstDifference_shift {i n' : ℕ} {v : ℤ} (hclear : Clear (Differ m l r) i)
    (hn : n' + i = n) (h : FirstDifference m (l + i) (r + i) n' v) : FirstDifference m l r n v := by
  have hshift : ∀ j, Differ m (l + i) (r + i) j ↔ Differ m l r (i + j) := by
    intro j
    rw [Differ, Differ, Nat.add_assoc, Nat.add_assoc]
  have hall : ∀ k, Clear (Differ m (l + i) (r + i)) k → Clear (Differ m l r) (i + k) := by
    intro k hk
    exact hclear.extend _ le_rfl (fun j hj hP => hk j hj ((hshift j).mpr hP))
  rcases h with ⟨k, hk, hP, hbefore, hv⟩ | ⟨hall', hv⟩
  · left
    rw [Nat.add_assoc, Nat.add_assoc] at hv
    exact ⟨i + k, by omega, (hshift k).mp hP, hall k hbefore, hv⟩
  · right
    exact ⟨(hall n' hall').mono (by omega), hv⟩

theorem wordDiff_shift (k l r i : ℕ) (next : Program ℤ) :
    wordDiff k (l + i) (r + i) 0 next = wordDiff k l r i next := by
  simp only [wordDiff, Nat.add_zero, Nat.zero_add, Nat.add_assoc]

theorem memcmpWords_does (order : ByteOrder) (hl : Readable R l n) (hr : Readable R r n)
    (hturns : n < turns) : Does (memcmpWords order turns l r n) R m (Compared m l r n) := by
  cases order with
  | big =>
    refine cmpSmall_does .big hl hr ?_ hturns
    intro h
    cases h
  | little =>
    apply does_loop (fun x m' => m' = m ∧ x.1 ≤ n ∧ x.2.1 = l + (n - x.1) ∧
        x.2.2 = r + (n - x.1) ∧ Clear (Differ m l r) (n - x.1)) (fun x => x.1)
    · rintro ⟨k, p, q⟩ m' next ⟨rfl, hk, hp, hq, hclear⟩ htest hnext
      dsimp only at hk hp hq hclear ⊢
      have htest : 16 ≤ k := of_decide_eq_true htest
      subst hp hq
      rw [wordDiff_shift]
      apply wordDiff_does hl hr (by omega) hclear
      intro hclear
      apply hnext
      · refine ⟨rfl, by dsimp only; omega, by dsimp only; omega, by dsimp only; omega, ?_⟩
        exact hclear.mono (by dsimp only; omega)
      · change k - 8 < k
        omega
    · rintro ⟨k, p, q⟩ m' ⟨rfl, hk, hp, hq, hclear⟩ htest
      dsimp only at hk hp hq hclear ⊢
      have htest : ¬16 ≤ k := of_decide_eq_false htest
      subst hp hq
      have hl' : Readable R (l + (n - k)) k := fun p w _ _ => hl p w (by omega) (by omega)
      have hr' : Readable R (r + (n - k)) k := fun p w _ _ => hr p w (by omega) (by omega)
      refine (cmpSmall_does .little hl' hr' (fun _ => by omega) (by omega)).mono (fun _ => id) ?_
      rintro v m'' ⟨rfl, hv⟩
      exact ⟨rfl, firstDifference_shift hclear (by omega) hv⟩
    · refine ⟨rfl, le_rfl, by dsimp only; omega, by dsimp only; omega, ?_⟩
      exact clear_zero.mono (by dsimp only; omega)
    · exact hturns

/-- `memcmp` in every variant, for lengths that do not fill the address space. -/
theorem memcmp_does (V : Variant) (hl : Readable R l n) (hr : Readable R r n)
    (hspace : n + 128 < 2 ^ 64) (hturns : n < turns) :
    Does (V.memcmp turns l r n) R m (Compared m l r n) := by
  cases V with
  | avx2 =>
    apply does_ite
    · intro h
      exact cmpSmall_does .little hl hr (fun _ => h) hturns
    intro h16
    apply does_ite
    · intro h
      have hw : Strings.sse2.width = 16 := rfl
      exact diffEnds_does hl hr (by omega) (by omega)
    · intro h
      exact cmp32_does hl hr (by omega) hspace hturns
  | sse2 =>
    apply does_ite
    · intro h
      exact cmpSmall_does .little hl hr (fun _ => h) hturns
    · intro h
      exact cmp16_does rfl hl hr (by omega) hspace hturns
  | neon =>
    apply does_ite
    · intro h
      exact cmpSmall_does .little hl hr (fun _ => h) hturns
    · intro h
      exact cmp16_does rfl hl hr (by omega) hspace hturns
  | words order size => exact memcmpWords_does order hl hr hturns

end Memcmp

/-! ## What `strcmp` does -/

/-- A position at which the strings differ or the first ends. -/
def Stops (m : Memory) (l r j : ℕ) : Prop := m (l + j) ≠ m (r + j) ∨ m (l + j) = 0

/-- The first position at which they do. -/
structure FirstStop (m : Memory) (l r s : ℕ) : Prop where
  stops : Stops m l r s
  clear : Clear (Stops m l r) s

/-- The strings are compared, and memory as it was. -/
def StrCompared (m : Memory) (l r s : ℕ) (v : ℤ) (m' : Memory) : Prop :=
  m' = m ∧ v = minus (m (l + s)) (m (r + s))

/-- The loads from both strings between one position and another may be made. -/
def Window (R : Load → Prop) (l r lo hi : ℕ) : Prop :=
  ∀ j w, lo ≤ j → j + w ≤ hi → R ⟨l + j, w⟩ ∧ R ⟨r + j, w⟩

/-- A mask marks the lanes at which two vectors stop a comparison of strings. -/
def StopMask (N : Narrowing) (stop : Vec N.width → Vec N.width → BitVec N.register) : Prop :=
  ∀ (m : Memory) (p q : ℕ), N.Marks (stop (m.vec N.width p) (m.vec N.width q))
    (fun j => m (p + j) ≠ m (q + j) ∨ m (p + j) = 0)

section Strcmp

variable {N : Narrowing} {stop : Vec N.width → Vec N.width → BitVec N.register} {R : Load → Prop}
  {m : Memory} {l r s i lo hi turns : ℕ} {next : Program ℤ}

theorem stops_shift (m : Memory) (l r i j : ℕ) :
    Stops m (l + i) (r + i) j ↔ Stops m l r (i + j) := by
  rw [Stops, Stops, Nat.add_assoc, Nat.add_assoc]

theorem tells_zero (m : Memory) (p w : ℕ) :
    (Vec.same (m.vec w p) (Vec.splat w 0)).Tells (fun j => m (p + j) = 0) := by
  apply Vec.tells_same
  intro j
  exact Iff.rfl

theorem stopMask_stop16 (N : Narrowing) : StopMask N (stop16 N) := by
  intro m p q
  have hsame : (Vec.same (m.vec N.width p) (m.vec N.width q)).Tells
      (fun j => m (p + j) = m (q + j)) := Vec.tells_same fun j => Iff.rfl
  exact (N.marks_mask hsame).compl_or (N.marks_mask (tells_zero m p N.width))

/-- A lane of the smaller of a vector and its comparison is zero where the comparison stops. -/
theorem least_same_eq_zero {w : ℕ} (m : Memory) (p q : ℕ) (j : Fin w) :
    Vec.least (m.vec w p) (Vec.same (m.vec w p) (m.vec w q)) j = 0 ↔
      m (p + j) ≠ m (q + j) ∨ m (p + j) = 0 := by
  rw [Vec.least_eq_zero, or_comm]
  have hsame : Vec.same (m.vec w p) (m.vec w q) j = 0 ↔ m (p + j) ≠ m (q + j) := by
    rw [Vec.same]
    change (if m (p + j) = m (q + j) then (255 : UInt8) else 0) = 0 ↔ _
    by_cases heq : m (p + j) = m (q + j)
    · rw [if_pos heq]
      exact ⟨fun h => absurd h (by decide), fun h => absurd heq h⟩
    · rw [if_neg heq]
      exact ⟨fun _ => heq, fun _ => rfl⟩
  rw [hsame]
  exact Iff.rfl

theorem stopMask_stop32 (N : Narrowing) : StopMask N (stop32 N) := by
  intro m p q
  apply N.marks_mask
  apply Vec.tells_same
  intro j
  exact least_same_eq_zero m p q j

theorem FirstStop.eq_of_first {k : ℕ} (hs : FirstStop m l r s) (hk : Stops m l r k)
    (hclear : Clear (Stops m l r) k) : k = s :=
  Nat.le_antisymm (hclear.le hs.stops) (hs.clear.le hk)

theorem step_does (hstop : StopMask N stop) (hs : FirstStop m l r s) (hwin : Window R l r lo hi)
    (hlo : lo ≤ i) (hhi : i + N.width ≤ hi) (hclear : Clear (Stops m l r) i)
    (hnext : Clear (Stops m l r) (i + N.width) → Does next R m (StrCompared m l r s)) :
    Does (step N stop l r i next) R m (StrCompared m l r s) := by
  obtain ⟨hl, hr⟩ := hwin i N.width hlo hhi
  apply does_bind
  apply does_load hl
  apply does_bind
  apply does_load hr
  have hmask := hstop m (l + i) (r + i)
  simp only [Nat.add_assoc] at hmask
  apply leaveAt_does (P := Stops m l r) hmask hclear _ hnext
  intro k hk hP hbefore
  have hks := hs.eq_of_first hP hbefore
  have hle := hclear.le hP
  obtain ⟨hl, hr⟩ := hwin k 1 (by omega) (by omega)
  refine ⟨hl, hr, rfl, ?_⟩
  rw [hks]

theorem step_shift (N : Narrowing) (stop : Vec N.width → Vec N.width → BitVec N.register)
    (l r c i : ℕ) (next : Program ℤ) :
    step N stop (l + c) (r + c) i next = step N stop l r (c + i) next := by
  simp only [step, leaveAt, Nat.add_assoc]

/-- The state of the loops over the room up to position `hi`: the pointers have gone as far as the
room has shrunk, and what they have passed is clear. -/
def AtRoom (m : Memory) (l r lo hi : ℕ) (x : ℕ × ℕ × ℕ) (m' : Memory) : Prop :=
  m' = m ∧ ∃ c, lo ≤ c ∧ c ≤ hi ∧ x = (hi - c, l + c, r + c) ∧ Clear (Stops m l r) c

/-- The state of the loops further on. -/
theorem atRoom_next {c w : ℕ} (hlo : lo ≤ c) (hhi : c + w ≤ hi)
    (hclear : Clear (Stops m l r) (c + w)) :
    AtRoom m l r lo hi (hi - c - w, l + c + w, r + c + w) m := by
  refine ⟨rfl, c + w, by omega, hhi, ?_, hclear⟩
  rw [Nat.sub_sub, Nat.add_assoc, Nat.add_assoc]

/-- Four vectors reduced to one: a lane is zero where any of the four stops. -/
theorem tells_block (m : Memory) (w p q : ℕ) :
    (Vec.same (Vec.least
      (Vec.least (Vec.least (m.vec w p) (Vec.same (m.vec w p) (m.vec w q)))
        (Vec.least (m.vec w (p + w)) (Vec.same (m.vec w (p + w)) (m.vec w (q + w)))))
      (Vec.least
        (Vec.least (m.vec w (p + 2 * w)) (Vec.same (m.vec w (p + 2 * w)) (m.vec w (q + 2 * w))))
        (Vec.least (m.vec w (p + 3 * w)) (Vec.same (m.vec w (p + 3 * w)) (m.vec w (q + 3 * w))))))
      (Vec.splat w 0)).Tells (fun j => (Stops m p q j ∨ Stops m (p + w) (q + w) j) ∨
        (Stops m (p + 2 * w) (q + 2 * w) j ∨ Stops m (p + 3 * w) (q + 3 * w) j)) := by
  apply Vec.tells_same
  intro j
  change Vec.least _ _ j = 0 ↔ _
  rw [Vec.least_four_eq_zero, least_same_eq_zero, least_same_eq_zero, least_same_eq_zero,
    least_same_eq_zero]
  exact Iff.rfl

theorem strcmpRoom_does {rest : ℕ × ℕ × ℕ → Program ℤ} (hstop : StopMask N stop)
    (hpos : 0 < N.width) (hs : FirstStop m l r s) (hwin : Window R l r lo hi) (hturns : s < turns)
    (hrest : ∀ x m', AtRoom m l r lo hi x m' → x.1 < N.width →
      Does (rest x) R m' (StrCompared m l r s)) {x : ℕ × ℕ × ℕ} {m' : Memory}
    (hx : AtRoom m l r lo hi x m') :
    Does (strcmpRoom N stop turns rest x) R m' (StrCompared m l r s) := by
  apply does_loop (AtRoom m l r lo hi) (fun x => s - (hi - x.1)) _ _ hx (by omega)
  · rintro x m' next ⟨rfl, c, hlo, hhi, rfl, hclear⟩ htest hnext
    have htest : 4 * N.width ≤ hi - c := of_decide_eq_true htest
    dsimp only
    have hgo : Clear (Stops m' l r) (c + 4 * N.width) →
        Does (next (hi - c - 4 * N.width, l + c + 4 * N.width, r + c + 4 * N.width)) R m'
          (StrCompared m' l r s) := by
      intro hclear'
      have hle := hclear'.le hs.stops
      exact hnext _ _ (atRoom_next hlo (by omega) hclear') (by dsimp only; omega)
    have hload : ∀ q, c ≤ q → q + N.width ≤ c + 4 * N.width →
        R ⟨l + q, N.width⟩ ∧ R ⟨r + q, N.width⟩ := fun q hq hq' =>
      hwin q N.width (by omega) (by omega)
    apply does_load_four (p := l + c)
    · intro q hq hq'
      have hl := (hload (q - l) (by omega) (by omega)).1
      rwa [Nat.add_sub_cancel' (by omega)] at hl
    apply does_load_four (p := r + c)
    · intro q hq hq'
      have hr := (hload (q - r) (by omega) (by omega)).2
      rwa [Nat.add_sub_cancel' (by omega)] at hr
    apply does_ite
    · intro _
      rw [step_shift, step_shift, step_shift, step_shift]
      apply step_does hstop hs hwin (by omega) (by omega) hclear
      intro hclear
      apply step_does hstop hs hwin (by omega) (by omega) (hclear.mono (by omega))
      intro hclear
      apply step_does hstop hs hwin (by omega) (by omega) (hclear.mono (by omega))
      intro hclear
      apply step_does hstop hs hwin (by omega) (by omega) (hclear.mono (by omega))
      intro hclear
      exact hgo (hclear.mono (by omega))
    · intro hzero
      rw [ne_eq, not_not] at hzero
      have hmask := N.marks_mask (tells_block m' N.width (l + c) (r + c))
      rw [hzero] at hmask
      have hnone : ∀ j < N.width, ¬Stops m' l r (c + j) ∧ ¬Stops m' l r (c + N.width + j) ∧
          ¬Stops m' l r (c + 2 * N.width + j) ∧ ¬Stops m' l r (c + 3 * N.width + j) := by
        intro j hj
        have hlane := hmask.none_of_zero hj
        simp only [not_or, Nat.add_assoc, stops_shift] at hlane ⊢
        exact ⟨hlane.1.1, hlane.1.2, hlane.2.1, hlane.2.2⟩
      apply hgo
      have h1 := hclear.extend c le_rfl (fun j hj => (hnone j hj).1)
      have h2 := h1.extend (c + N.width) le_rfl (fun j hj => (hnone j hj).2.1)
      have h3 := h2.extend (c + 2 * N.width) (by omega) (fun j hj => (hnone j hj).2.2.1)
      have h4 := h3.extend (c + 3 * N.width) (by omega) (fun j hj => (hnone j hj).2.2.2)
      exact h4.mono (by omega)
  · rintro x m' hx htest
    apply does_loop (AtRoom m l r lo hi) (fun x => s - (hi - x.1)) _ _ hx (by omega)
    · rintro x m' next ⟨rfl, c, hlo, hhi, rfl, hclear⟩ htest hnext
      have htest : N.width ≤ hi - c := of_decide_eq_true htest
      dsimp only
      rw [step_shift]
      apply step_does hstop hs hwin (by omega) (by omega) hclear
      intro hclear
      have hle := hclear.le hs.stops
      exact hnext _ _ (atRoom_next hlo (by omega) hclear) (by dsimp only; omega)
    · rintro x m' hx htest
      exact hrest x m' hx (Nat.lt_of_not_le (of_decide_eq_false htest))

theorem strcmpBytes_does {again : ℕ × ℕ → Program ℤ} (hs : FirstStop m l r s)
    (hwin : Window R l r lo hi) (hturns : s < turns)
    (hagain : Clear (Stops m l r) hi → Does (again (l + hi, r + hi)) R m (StrCompared m l r s))
    {x : ℕ × ℕ × ℕ} {m' : Memory} (hx : AtRoom m l r lo hi x m') :
    Does (strcmpBytes turns again x) R m' (StrCompared m l r s) := by
  apply does_loop (AtRoom m l r lo hi) (fun x => s - (hi - x.1)) _ _ hx (by omega)
  · rintro x m' next ⟨rfl, c, hlo, hhi, rfl, hclear⟩ htest hnext
    have htest : hi - c ≠ 0 := of_decide_eq_true htest
    dsimp only
    obtain ⟨hl, hr⟩ := hwin c 1 hlo (by omega)
    apply does_bind
    apply does_byte hl
    apply does_bind
    apply does_byte hr
    apply does_ite
    · intro hP
      have hcs := hs.eq_of_first hP hclear
      refine minusAt_does hl hr ⟨rfl, ?_⟩
      rw [hcs]
    · intro hP
      have hclear' : Clear (Stops m' l r) (c + 1) := by
        apply hclear.extend c le_rfl
        intro j hj
        obtain rfl : j = 0 := by omega
        exact hP
      have hle := hclear'.le hs.stops
      exact hnext _ _ (atRoom_next hlo (by omega) hclear') (by dsimp only; omega)
  · rintro x m' ⟨rfl, c, hlo, hhi, rfl, hclear⟩ htest
    have htest : ¬hi - c ≠ 0 := of_decide_eq_false htest
    obtain rfl : c = hi := by omega
    exact hagain hclear

theorem strcmpTail_does {again : ℕ × ℕ → Program ℤ} (hs : FirstStop m l r s)
    (hwin : Window R l r lo hi) (hturns : s < turns)
    (hagain : Clear (Stops m l r) hi → Does (again (l + hi, r + hi)) R m (StrCompared m l r s))
    {x : ℕ × ℕ × ℕ} {m' : Memory} (hx : AtRoom m l r lo hi x m') :
    Does (strcmpTail turns again x) R m' (StrCompared m l r s) := by
  apply does_loop (AtRoom m l r lo hi) (fun x => s - (hi - x.1)) _ _ hx (by omega)
  · rintro x m' next ⟨rfl, c, hlo, hhi, rfl, hclear⟩ htest hnext
    have htest : 8 ≤ hi - c := of_decide_eq_true htest
    have hvec := hwin c 8 hlo (by omega)
    dsimp only
    apply does_bind
    apply does_load hvec.1
    apply does_bind
    apply does_load hvec.2
    apply does_ite
    · intro _
      exact strcmpBytes_does hs hwin hturns hagain ⟨rfl, c, hlo, hhi, rfl, hclear⟩
    · intro hgo
      rw [not_or, ne_eq, ne_eq, not_not, not_not] at hgo
      have hclear' : Clear (Stops m' l r) (c + 8) := by
        apply hclear.extend c le_rfl
        intro j hj hP
        have heq := little_inj hgo.1 ⟨j, hj⟩
        have hne := (hasZero_eq_zero_iff (by decide) _).mp hgo.2 ⟨j, hj⟩
        rw [← stops_shift] at hP
        exact hP.elim (fun h => h heq) hne
      have hle := hclear'.le hs.stops
      exact hnext _ _ (atRoom_next hlo (by omega) hclear') (by dsimp only; omega)
  · rintro x m' hx htest
    exact strcmpBytes_does hs hwin hturns hagain hx

/-- The loads that lie in the page of a byte of either string up to its end. -/
def PagesOf (l r s : ℕ) (ld : Load) : Prop :=
  ∃ k ≤ s, (∀ a, ld.Has a → a / pageMin = (l + k) / pageMin) ∨
    ∀ a, ld.Has a → a / pageMin = (r + k) / pageMin

/-- The rest of the pages that the strings have reached. -/
theorem window_of_pages {c : ℕ} (hc : c ≤ s) (hl : hi ≤ c + toPageEnd (l + c))
    (hr : hi ≤ c + toPageEnd (r + c)) : Window (PagesOf l r s) l r c hi := by
  intro j w hj hj'
  have hpage : pageMin = 4096 := rfl
  simp only [toPageEnd, hpage] at hl hr
  constructor
  · refine ⟨c, hc, Or.inl ?_⟩
    rintro a ⟨ha, ha'⟩
    dsimp only at ha ha'
    rw [hpage]
    omega
  · refine ⟨c, hc, Or.inr ?_⟩
    rintro a ⟨ha, ha'⟩
    dsimp only at ha ha'
    rw [hpage]
    omega

theorem toPageEnd_pos (p : ℕ) : 0 < toPageEnd p := by
  have hpage : pageMin = 4096 := rfl
  simp only [toPageEnd, hpage]
  omega

theorem strcmpLoop_does {tail : (ℕ × ℕ → Program ℤ) → ℕ × ℕ × ℕ → Program ℤ} {c : ℕ}
    (hstop : StopMask N stop) (hpos : 0 < N.width) (hs : FirstStop m l r s) (hturns : s < turns)
    (htail : ∀ {lo hi : ℕ} {again : ℕ × ℕ → Program ℤ} {x : ℕ × ℕ × ℕ} {m' : Memory},
      Window (PagesOf l r s) l r lo hi →
      (Clear (Stops m l r) hi →
        Does (again (l + hi, r + hi)) (PagesOf l r s) m (StrCompared m l r s)) →
      AtRoom m l r lo hi x m' →
      Does (tail again x) (PagesOf l r s) m' (StrCompared m l r s))
    (hclear : Clear (Stops m l r) c) :
    Does (strcmpLoop N stop tail turns (l + c) (r + c)) (PagesOf l r s) m
      (StrCompared m l r s) := by
  apply does_loop (fun x m' => m' = m ∧ ∃ c, x = (l + c, r + c) ∧ Clear (Stops m l r) c)
    (fun x => s - (x.1 - l)) _ _ ⟨rfl, c, rfl, hclear⟩ (by omega)
  · rintro x m' again ⟨rfl, c, rfl, hclear⟩ - hagain
    dsimp only
    have hc := hclear.le hs.stops
    have hroom : 0 < room (l + c) (r + c) ∧ room (l + c) (r + c) ≤ toPageEnd (l + c) ∧
        room (l + c) (r + c) ≤ toPageEnd (r + c) := by
      have hl := toPageEnd_pos (l + c)
      have hr := toPageEnd_pos (r + c)
      rw [room]
      split_ifs <;> omega
    generalize room (l + c) (r + c) = n at hroom
    have hwin : Window (PagesOf l r s) l r c (c + n) :=
      window_of_pages hc (by omega) (by omega)
    refine strcmpRoom_does hstop hpos hs hwin hturns ?_
      ⟨rfl, c, le_rfl, by omega, by rw [Nat.add_sub_cancel_left], hclear⟩
    intro x m' hx _
    refine htail hwin ?_ hx
    intro hclear'
    have hle := hclear'.le hs.stops
    exact hagain _ _ ⟨rfl, c + n, rfl, hclear'⟩ (by dsimp only; omega)
  · intro x m' _ htest
    cases htest

theorem strcmp16_does {c : ℕ} (hpos : 0 < N.width) (hs : FirstStop m l r s) (hturns : s < turns)
    (hclear : Clear (Stops m l r) c) :
    Does (strcmp16 N turns (l + c) (r + c)) (PagesOf l r s) m (StrCompared m l r s) :=
  strcmpLoop_does (stopMask_stop16 N) hpos hs hturns
    (fun hwin hagain hx => strcmpBytes_does hs hwin hturns hagain hx) hclear

theorem strcmp32_does {c : ℕ} (hs : FirstStop m l r s) (hturns : s < turns)
    (hclear : Clear (Stops m l r) c) :
    Does (strcmp32 turns (l + c) (r + c)) (PagesOf l r s) m (StrCompared m l r s) := by
  have hpages : ∀ {c : ℕ}, Clear (Stops m l r) c →
      Does (strcmpLoop avx2 (stop32 avx2) (strcmpTail turns) turns (l + c) (r + c))
        (PagesOf l r s) m
        (StrCompared m l r s) := fun hclear =>
    strcmpLoop_does (stopMask_stop32 avx2) (by decide) hs hturns
      (fun hwin hagain hx => strcmpTail_does hs hwin hturns hagain hx) hclear
  have hc := hclear.le hs.stops
  apply does_ite
  · rintro ⟨hmod, hl, hr⟩
    have hwin : Window (PagesOf l r s) l r c (c + 32) :=
      window_of_pages hc (by omega) (by omega)
    rw [step_shift]
    apply step_does (stopMask_stop32 avx2) hs hwin (by omega) le_rfl hclear
    intro hclear'
    rw [Nat.add_assoc, Nat.add_assoc]
    refine hpages (hclear'.mono ?_)
    change _ ≤ c + 0 + 32
    omega
  · intro _
    exact hpages hclear

theorem strcmpFirst_does {rest : ℕ → ℕ → Program ℤ} (hstop : StopMask N stop)
    (hs : FirstStop m l r s)
    (hrest : ∀ {c : ℕ}, Clear (Stops m l r) c →
      Does (rest (l + c) (r + c)) (PagesOf l r s) m (StrCompared m l r s)) :
    Does (strcmpFirst N stop rest l r) (PagesOf l r s) m (StrCompared m l r s) := by
  apply does_ite
  · rintro ⟨hl, hr⟩
    have hwin : Window (PagesOf l r s) l r 0 (4 * N.width) :=
      window_of_pages (Nat.zero_le s) (by simpa using hl) (by simpa using hr)
    apply step_does hstop hs hwin le_rfl (by omega) clear_zero
    intro hclear
    apply step_does hstop hs hwin (by omega) (by omega) (hclear.mono (by omega))
    intro hclear
    apply step_does hstop hs hwin (by omega) (by omega) (hclear.mono (by omega))
    intro hclear
    apply step_does hstop hs hwin (by omega) (by omega) (hclear.mono (by omega))
    intro hclear
    exact hrest (hclear.mono (by omega))
  · intro _
    exact hrest (c := 0) clear_zero

theorem strcmpWords_does (hs : FirstStop m l r s) (hturns : s < turns) :
    Does (strcmpWords turns l r) (PagesOf l r s) m (StrCompared m l r s) := by
  apply does_loop (fun x m' => m' = m ∧ ∃ c, x = (l + c, r + c) ∧ Clear (Stops m l r) c)
    (fun x => s - (x.1 - l)) _ _ ⟨rfl, 0, rfl, clear_zero⟩ (by omega)
  · rintro x m' next ⟨rfl, c, rfl, hclear⟩ - hnext
    dsimp only
    have hc := hclear.le hs.stops
    have hroom : 0 < toPageEnd (l + c) ∧ 0 < toPageEnd (r + c) :=
      ⟨toPageEnd_pos _, toPageEnd_pos _⟩
    have hwin : Window (PagesOf l r s) l r c (c + 1) := window_of_pages hc (by omega) (by omega)
    obtain ⟨hl, hr⟩ := hwin c 1 le_rfl le_rfl
    apply does_bind
    apply does_byte hl
    apply does_bind
    apply does_byte hr
    apply does_ite
    · rintro ⟨heq, hne⟩
      have hclear' : Clear (Stops m' l r) (c + 1) := by
        apply hclear.extend c le_rfl
        intro j hj hP
        obtain rfl : j = 0 := by omega
        exact hP.elim (fun h => h heq) hne
      have hle := hclear'.le hs.stops
      exact hnext _ _ ⟨rfl, c + 1, rfl, hclear'⟩ (by dsimp only; omega)
    · intro hstops
      have hP : Stops m' l r c := by
        by_contra hcon
        exact hstops ⟨by simpa [Stops] using fun h => hcon (Or.inl h), fun h => hcon (Or.inr h)⟩
      have hcs := hs.eq_of_first hP hclear
      refine minusAt_does hl hr ⟨rfl, ?_⟩
      rw [hcs]
  · intro x m' _ htest
    cases htest

/-- `strcmp` in every variant: it loads nothing outside the pages that hold a byte of a string. -/
theorem strcmp_does (V : Variant) (hs : FirstStop m l r s) (hturns : s < turns) :
    Does (V.strcmp turns l r) (PagesOf l r s) m (StrCompared m l r s) := by
  cases V with
  | avx2 => exact strcmpFirst_does (stopMask_stop32 _) hs (fun h => strcmp32_does hs hturns h)
  | sse2 =>
    exact strcmpFirst_does (stopMask_stop16 _) hs (fun h => strcmp16_does (by decide) hs hturns h)
  | neon =>
    exact strcmpFirst_does (stopMask_stop16 _) hs (fun h => strcmp16_does (by decide) hs hturns h)
  | words order size => exact strcmpWords_does hs hturns

end Strcmp

/-! ## Every variant returns what the bytewise function returns -/

theorem Plain.memcmp_does {R : Load → Prop} {m : Memory} {l r n turns : ℕ} (hl : Readable R l n)
    (hr : Readable R r n) (hturns : n < turns) :
    Does (Plain.memcmp turns l r n) R m (Compared m l r n) := by
  apply does_loop (fun i m' => m' = m ∧ i ≤ n ∧ Clear (Differ m l r) i) (fun i => n - i)
  · rintro i m' next ⟨rfl, hi, hclear⟩ htest hnext
    have htest : i < n := of_decide_eq_true htest
    apply does_bind
    apply does_byte (hl.byte htest)
    apply does_bind
    apply does_byte (hr.byte htest)
    apply does_ite
    · intro heq
      have hclear' : Clear (Differ m' l r) (i + 1) := by
        apply hclear.extend i le_rfl
        intro j hj hP
        obtain rfl : j = 0 := by omega
        exact hP heq
      exact hnext _ _ ⟨rfl, htest, hclear'⟩ (by omega)
    · intro hne
      exact does_pure (compared_of_first htest hne hclear)
  · rintro i m' ⟨rfl, hi, hclear⟩ htest
    have htest : ¬i < n := of_decide_eq_false htest
    exact does_pure (compared_of_clear (hclear.mono (by omega)))
  · exact ⟨rfl, by omega, clear_zero⟩
  · omega

theorem Plain.strcmp_does {m : Memory} {l r s turns : ℕ} (hs : FirstStop m l r s)
    (hturns : s < turns) :
    Does (Plain.strcmp turns l r) (fun _ => True) m (StrCompared m l r s) := by
  apply does_loop (fun i m' => m' = m ∧ Clear (Stops m l r) i) (fun i => s - i) _ _
    ⟨rfl, clear_zero⟩ (by omega)
  · rintro i m' next ⟨rfl, hclear⟩ - hnext
    apply does_bind
    apply does_byte trivial
    apply does_bind
    apply does_byte trivial
    apply does_ite
    · rintro ⟨heq, hne⟩
      have hclear' : Clear (Stops m' l r) (i + 1) := by
        apply hclear.extend i le_rfl
        intro j hj hP
        obtain rfl : j = 0 := by omega
        exact hP.elim (fun h => h heq) hne
      have hle := hclear'.le hs.stops
      exact hnext _ _ ⟨rfl, hclear'⟩ (by omega)
    · intro hstops
      have hP : Stops m' l r i := by
        by_contra hcon
        exact hstops ⟨by simpa [Stops] using fun h => hcon (Or.inl h), fun h => hcon (Or.inr h)⟩
      refine does_pure ⟨rfl, ?_⟩
      rw [hs.eq_of_first hP hclear]
  · intro i m' _ htest
    cases htest

/-- The first difference is one number. -/
theorem FirstDifference.unique {m : Memory} {l r n : ℕ} {v v' : ℤ} (h : FirstDifference m l r n v)
    (h' : FirstDifference m l r n v') : v = v' := by
  rcases h with ⟨k, hk, hP, hclear, rfl⟩ | ⟨hclear, rfl⟩
  · rcases h' with ⟨k', hk', hP', hclear', rfl⟩ | ⟨hclear', rfl⟩
    · have hkk := Nat.le_antisymm (hclear.le hP') (hclear'.le hP)
      rw [hkk]
    · exact absurd hP (hclear' k hk)
  · rcases h' with ⟨k', hk', hP', hclear', rfl⟩ | ⟨hclear', rfl⟩
    · exact absurd hP' (hclear k' hk')
    · rfl

theorem returns_of_compared {m : Memory} {R : Load → Prop} {x : Program ℤ} {l r n : ℕ} {v : ℤ}
    (h : Does x R m (Compared m l r n)) (hv : FirstDifference m l r n v) : Returns x m v m := by
  obtain ⟨v', m', ls, hx, ⟨rfl, hv'⟩, -⟩ := h
  rw [hv'.unique hv] at hx
  exact ⟨ls, hx⟩

/-- Every variant of `memcmp` returns the difference of the first bytes that differ, zero where none
do, and every variant of `strcmp` that of the bytes at which the strings first differ or end. -/
theorem comparisons_eq_plain (m : Memory) (turns l r : ℕ) :
    (∀ n, n < turns → n + pageMin ≤ 2 ^ 64 →
      ∃ v, FirstDifference m l r n v ∧ Returns (Plain.memcmp turns l r n) m v m ∧
        ∀ V : Variant, Returns (V.memcmp turns l r n) m v m) ∧
    ∀ s, s < turns → FirstStop m l r s →
      Returns (Plain.strcmp turns l r) m (minus (m (l + s)) (m (r + s))) m ∧
        ∀ V : Variant, Returns (V.strcmp turns l r) m (minus (m (l + s)) (m (r + s))) m := by
  constructor
  · intro n hturns hspace
    have hpage : pageMin = 4096 := rfl
    have hany : ∀ p, Readable (fun _ => True) p n := fun _ _ _ _ _ => trivial
    have hplain := Plain.memcmp_does (m := m) (hany l) (hany r) hturns
    obtain ⟨v, m', ls, -, ⟨-, hv⟩, -⟩ := id hplain
    refine ⟨v, hv, returns_of_compared hplain hv, ?_⟩
    intro V
    exact returns_of_compared (memcmp_does V (hany l) (hany r) (by omega) hturns) hv
  · intro s hturns hs
    have hswap : ∀ {R : Load → Prop} {x : Program ℤ}, Does x R m (StrCompared m l r s) →
        Returns x m (minus (m (l + s)) (m (r + s))) m := by
      rintro R x ⟨v, m', ls, hx, ⟨rfl, rfl⟩, -⟩
      exact ⟨ls, hx⟩
    exact ⟨hswap (Plain.strcmp_does hs hturns), fun V => hswap (strcmp_does V hs hturns)⟩

/-- Strings that run into their next pages and differ there, at a byte each. -/
theorem comparisons_eq_plain_acrossPages :
    FirstStop (fun a => if a = 8200 then 7 else 1) 4090 8190 10 ∧
      ∀ V : Variant, Returns (V.strcmp 11 4090 8190) (fun a => if a = 8200 then 7 else 1) (-6)
        (fun a => if a = 8200 then 7 else 1) := by
  have hstop : FirstStop (fun a => if a = 8200 then 7 else 1) 4090 8190 10 := by
    refine ⟨Or.inl (by decide), ?_⟩
    rintro j hj (h | h)
    · dsimp only at h
      rw [if_neg (by omega), if_neg (by omega)] at h
      exact h rfl
    · dsimp only at h
      rw [if_neg (by omega)] at h
      exact absurd h (by decide)
  exact ⟨hstop, ((comparisons_eq_plain _ 11 4090 8190).2 10 (by decide) hstop).2⟩

end OpenkalMusl.Strings
