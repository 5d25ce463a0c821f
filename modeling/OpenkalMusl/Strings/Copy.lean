import OpenkalMusl.Bytes.Words
import OpenkalMusl.Strings.Plain

/-!
# Copying and setting memory

`memcpy`, `memmove` and `memset` in every variant of `okm_string.c`. A length is handled by its
class: up to a few vectors by loads and stores that may overlap, all loads before any store; above
that by a loop of four vectors whose stores are aligned, between a head and a tail that were loaded
before it. `memmove` copies forward through the same functions unless the destination begins inside
the source, which it finds by one subtraction of addresses; then it copies backward.

Each store holds a piece of what the destination is to hold in the end, so the argument is the same
throughout: the pieces cover the range, and a load never meets a piece that was stored over it.

## Main definitions

* `Strings.Variant.memcpy`, `Strings.Variant.memmove`, `Strings.Variant.memset`

## Main results

* `Strings.memcpy_does`, `Strings.memmove_does`, `Strings.memset_does`: what each does, and that it
  loads nothing but its source
* `Strings.copies_eq_plain`: every variant leaves the memory that the bytewise function leaves
-/

namespace OpenkalMusl.Strings

open Bytes Bytes.Program

/-! ## The pieces -/

/-- The first `w` bytes and the last, both loaded before either is stored. -/
def twoEnds (w d s n : ℕ) : Program Unit := do
  let a ← load w s
  let b ← load w (s + n - w)
  store d a
  store (d + n - w) b

/-- The first two vectors and the last two, all loaded before any is stored. -/
def fourEnds (w d s n : ℕ) : Program Unit := do
  let a ← load w s
  let b ← load w (s + w)
  let c ← load w (s + n - 2 * w)
  let e ← load w (s + n - w)
  store d a
  store (d + w) b
  store (d + n - 2 * w) c
  store (d + n - w) e

def copySmall (d s n : ℕ) : Program Unit :=
  if 8 ≤ n then twoEnds 8 d s n
  else if 4 ≤ n then twoEnds 4 d s n
  else if 2 ≤ n then twoEnds 2 d s n
  else if n ≠ 0 then do
    let b ← byte s
    storeByte d b
  else pure ()

/-- The loop of `copy16` and `copy32`. The first vector and the last four are loaded before anything
is stored; between them the stores are aligned. -/
def forwardBlocks (turns w d s n : ℕ) : Program Unit := do
  let h ← load w s
  let t0 ← load w (s + n - 4 * w)
  let t1 ← load w (s + n - 3 * w)
  let t2 ← load w (s + n - 2 * w)
  let t3 ← load w (s + n - w)
  let finish := d + n - 4 * w
  let skip := w - d % w
  loop (fun x : ℕ × ℕ => x.1 < finish)
    (fun x next => do
      let a ← load w x.2
      let b ← load w (x.2 + w)
      let c ← load w (x.2 + 2 * w)
      let e ← load w (x.2 + 3 * w)
      storeAligned x.1 a
      storeAligned (x.1 + w) b
      storeAligned (x.1 + 2 * w) c
      storeAligned (x.1 + 3 * w) e
      next (x.1 + 4 * w, x.2 + 4 * w))
    (fun _ => do
      store d h
      store finish t0
      store (finish + w) t1
      store (finish + 2 * w) t2
      store (finish + 3 * w) t3)
    turns (d + skip, s + skip)

/-- The loop of `copyback16` and `copyback32`: four vectors from the end, and the first four, which
were loaded before anything was stored, last. -/
def backwardBlocks (turns w d s n : ℕ) : Program Unit := do
  let h0 ← load w s
  let h1 ← load w (s + w)
  let h2 ← load w (s + 2 * w)
  let h3 ← load w (s + 3 * w)
  loop (fun n => 4 * w < n)
    (fun n next => do
      let n := n - 4 * w
      let a ← load w (s + n)
      let b ← load w (s + n + w)
      let c ← load w (s + n + 2 * w)
      let e ← load w (s + n + 3 * w)
      store (d + n) a
      store (d + n + w) b
      store (d + n + 2 * w) c
      store (d + n + 3 * w) e
      next n)
    (fun _ => do
      store d h0
      store (d + w) h1
      store (d + 2 * w) h2
      store (d + 3 * w) h3)
    turns n

/-! ## Over sixteen bytes and over thirty-two -/

def copy16 (turns d s n : ℕ) : Program Unit :=
  if n ≤ 64 then fourEnds 16 d s n else forwardBlocks turns 16 d s n

def copyback16 (turns d s n : ℕ) : Program Unit := backwardBlocks turns 16 d s n

def copy32 (turns d s n : ℕ) : Program Unit :=
  if n ≤ 64 then twoEnds 32 d s n
  else if n ≤ 128 then fourEnds 32 d s n
  else forwardBlocks turns 32 d s n

def copyback32 (turns d s n : ℕ) : Program Unit :=
  if n ≤ 128 then fourEnds 32 d s n else backwardBlocks turns 32 d s n

/-- The vectors of a length between two and four of them, the last ending with the source; `v` is
what the array holds when the loads begin. -/
def moveShort (turns d s n : ℕ) : Program Unit :=
  let k := (n + 15) / 16
  loop (fun x : ℕ × (ℕ → Vec 16) => x.1 + 1 < k)
    (fun x next => do
      let a ← load 16 (s + 16 * x.1)
      next (x.1 + 1, Function.update x.2 x.1 a))
    (fun x => do
      let e ← load 16 (s + n - 16)
      let v := Function.update x.2 (k - 1) e
      loop (fun i => i + 1 < k)
        (fun i next => do
          store (d + 16 * i) (v i)
          next (i + 1))
        (fun _ => store (d + n - 16) (v (k - 1)))
        turns 0)
    turns (0, fun _ _ => 0)

/-- `memcpy16` and `memcpy32`, which differ above thirty-two bytes. -/
def memcpyWide (copy : Program Unit) (d s n : ℕ) : Program ℕ := do
  (if n ≤ 16 then copySmall d s n
    else if n ≤ 32 then twoEnds 16 d s n
    else copy)
  pure d

def memcpy16 (turns d s n : ℕ) : Program ℕ := memcpyWide (copy16 turns d s n) d s n

def memcpy32 (turns d s n : ℕ) : Program ℕ := memcpyWide (copy32 turns d s n) d s n

/-- `(uintptr_t)d - (uintptr_t)s`. -/
def distance (bits d s : ℕ) : ℕ := (d + 2 ^ bits - s) % 2 ^ bits

/-- `memmove16` and `memmove32`: forward unless the destination begins inside the source. -/
def memmoveWide (forward : Program ℕ) (back : Program Unit) (turns d s n : ℕ) : Program ℕ :=
  if n ≤ distance 64 d s then forward
  else do
    (if n ≤ 16 then copySmall d s n
      else if n ≤ 64 then moveShort turns d s n
      else back)
    pure d

def memmove16 (turns d s n : ℕ) : Program ℕ :=
  memmoveWide (memcpy16 turns d s n) (copyback16 turns d s n) turns d s n

def memmove32 (turns d s n : ℕ) : Program ℕ :=
  memmoveWide (memcpy32 turns d s n) (copyback32 turns d s n) turns d s n

/-! ## Setting -/

/-- The bytes of a word of `k` bytes. -/
def wordVec (order : ByteOrder) (k x : ℕ) : Vec k := fun i =>
  match order with
  | .little => UInt8.ofNat (x / 256 ^ i.val % 256)
  | .big => UInt8.ofNat (x / 256 ^ (k - 1 - i.val) % 256)

/-- A byte in every byte of a `uint64_t`. -/
def repeated (b : UInt8) : ℕ := b.toNat * 0x0101010101010101 % 2 ^ 64

def setTwoEnds {w : ℕ} (d : ℕ) (v : Vec w) (n : ℕ) : Program Unit := do
  store d v
  store (d + n - w) v

def setFourEnds {w : ℕ} (d : ℕ) (v : Vec w) (n : ℕ) : Program Unit := do
  store d v
  store (d + w) v
  store (d + n - 2 * w) v
  store (d + n - w) v

/-- The loop of `set16` and `set32`: the first vector and the last four unaligned, the stores
between them aligned. -/
def setBlocks {w : ℕ} (turns d : ℕ) (v : Vec w) (n : ℕ) : Program Unit := do
  let finish := d + n - 4 * w
  store d v
  loop (fun q => q < finish)
    (fun q next => do
      storeAligned q v
      storeAligned (q + w) v
      storeAligned (q + 2 * w) v
      storeAligned (q + 3 * w) v
      next (q + 4 * w))
    (fun _ => do
      store finish v
      store (finish + w) v
      store (finish + 2 * w) v
      store (finish + 3 * w) v)
    turns ((d + w) / w * w)

def setSmall (d : ℕ) (b : UInt8) (n : ℕ) : Program Unit :=
  if 8 ≤ n then setTwoEnds d (wordVec .little 8 (repeated b)) n
  else if 4 ≤ n then setTwoEnds d (wordVec .little 4 (repeated b % 2 ^ 32)) n
  else if n ≠ 0 then do
    storeByte d b
    storeByte (d + n / 2) b
    storeByte (d + n - 1) b
  else pure ()

def set16 (turns d : ℕ) (c : UInt8) (n : ℕ) : Program Unit :=
  let v : Vec 16 := fun _ => c
  if n ≤ 64 then setFourEnds d v n else setBlocks turns d v n

def set32 (turns d : ℕ) (c : UInt8) (n : ℕ) : Program Unit :=
  let v : Vec 32 := fun _ => c
  if n ≤ 64 then setTwoEnds d v n
  else if n ≤ 128 then setFourEnds d v n
  else setBlocks turns d v n

/-- `memset16` and `memset32`, which differ above thirty-two bytes. -/
def memsetWide (set : Program Unit) (d : ℕ) (b : UInt8) (n : ℕ) : Program ℕ := do
  (if n < 16 then setSmall d b n
    else if n ≤ 32 then setTwoEnds d (fun _ : Fin 16 => b) n
    else set)
  pure d

def memset16 (turns d : ℕ) (b : UInt8) (n : ℕ) : Program ℕ :=
  memsetWide (set16 turns d b n) d b n

def memset32 (turns d : ℕ) (b : UInt8) (n : ℕ) : Program ℕ :=
  memsetWide (set32 turns d b n) d b n

/-! ## A word at a time -/

def copyForward (turns d s n : ℕ) : Program Unit :=
  if n ≤ 16 then copySmall d s n
  else
    loop (fun x : ℕ × ℕ × ℕ => 8 ≤ x.1)
      (fun x next => do
        let a ← load 8 x.2.2
        store x.2.1 a
        next (x.1 - 8, x.2.1 + 8, x.2.2 + 8))
      (fun x =>
        loop (fun x : ℕ × ℕ × ℕ => x.1 ≠ 0)
          (fun x next => do
            let a ← byte x.2.2
            storeByte x.2.1 a
            next (x.1 - 1, x.2.1 + 1, x.2.2 + 1))
          (fun _ => pure ()) turns x)
      turns (n, d, s)

def memcpyWords (turns d s n : ℕ) : Program ℕ := do
  copyForward turns d s n
  pure d

def memmoveWords (bits turns d s n : ℕ) : Program ℕ :=
  if n ≤ distance bits d s then do
    copyForward turns d s n
    pure d
  else if n ≤ 16 then do
    copySmall d s n
    pure d
  else
    loop (fun n => 8 ≤ n)
      (fun n next => do
        let n := n - 8
        let a ← load 8 (s + n)
        store (d + n) a
        next n)
      (fun n =>
        loop (fun n => n ≠ 0)
          (fun n next => do
            let n := n - 1
            let a ← byte (s + n)
            storeByte (d + n) a
            next n)
          (fun _ => pure d) turns n)
      turns n

def memsetWords (order : ByteOrder) (turns d : ℕ) (c : UInt8) (n : ℕ) : Program ℕ :=
  loop (fun x : ℕ × ℕ => 8 ≤ x.1)
    (fun x next => do
      store x.2 (wordVec order 8 (repeated c))
      next (x.1 - 8, x.2 + 8))
    (fun x =>
      loop (fun x : ℕ × ℕ => x.1 ≠ 0)
        (fun x next => do
          storeByte x.2 c
          next (x.1 - 1, x.2 + 1))
        (fun _ => pure d) turns x)
    turns (n, d)

/-! ## The public functions -/

def Variant.memcpy (V : Variant) (turns d s n : ℕ) : Program ℕ :=
  match V with
  | .avx2 => memcpy32 turns d s n
  | .sse2 | .neon => memcpy16 turns d s n
  | .words _ _ => memcpyWords turns d s n

def Variant.memmove (V : Variant) (turns d s n : ℕ) : Program ℕ :=
  match V with
  | .avx2 => memmove32 turns d s n
  | .sse2 | .neon => memmove16 turns d s n
  | .words _ _ => memmoveWords V.addressBits turns d s n

def Variant.memset (V : Variant) (turns d : ℕ) (c : UInt8) (n : ℕ) : Program ℕ :=
  match V with
  | .avx2 => memset32 turns d c n
  | .sse2 | .neon => memset16 turns d c n
  | .words order _ => memsetWords order turns d c n

/-! ## What the pieces do -/

/-- What a copy from `s` to `d` is to leave at an address of its destination. -/
def source (m : Memory) (d s : ℕ) : ℕ → UInt8 := fun a => m (s + (a - d))

section Pieces

variable {R : Load → Prop} {m : Memory} {d s n w : ℕ}

theorem vec_eq_source {p q : ℕ} (h : p + d = s + q) (hd : d ≤ q) (i : Fin w) :
    m.vec w p i = source m d s (q + i) := by
  simp only [Memory.vec, source]
  congr 1
  omega

/-- Four vectors of the source stored at their places in the destination. -/
theorem put_four_source {M : Memory} {p q : ℕ} (h : p + d = s + q) (hd : d ≤ q) :
    (((M.put q (m.vec w p)).put (q + w) (m.vec w (p + w))).put (q + 2 * w)
      (m.vec w (p + 2 * w))).put (q + 3 * w) (m.vec w (p + 3 * w)) =
      M.fill (source m d s) q (q + 4 * w) :=
  Memory.put_four (fun i => vec_eq_source h hd i) (fun i => vec_eq_source (by omega) (by omega) i)
    (fun i => vec_eq_source (by omega) (by omega) i)
    (fun i => vec_eq_source (by omega) (by omega) i)

theorem twoEnds_does (hw : w ≤ n) (hn : n ≤ 2 * w) (hR : ∀ p w, s ≤ p → p + w ≤ s + n → R ⟨p, w⟩) :
    Does (twoEnds w d s n) R m (fun _ m' => m' = m.fill (source m d s) d (d + n)) := by
  apply does_bind
  apply does_load (hR _ _ (by omega) (by omega))
  apply does_bind
  apply does_load (hR _ _ (by omega) (by omega))
  apply does_bind
  apply does_store_first (fun i => vec_eq_source rfl le_rfl i)
  apply does_store_above (fun i => vec_eq_source (by omega) (by omega) i) (by omega) (by omega)
    (by omega)
  rw [Nat.sub_add_cancel (by omega)]

theorem fourEnds_does (hw : 2 * w ≤ n) (hn : n ≤ 4 * w)
    (hR : ∀ p w, s ≤ p → p + w ≤ s + n → R ⟨p, w⟩) :
    Does (fourEnds w d s n) R m (fun _ m' => m' = m.fill (source m d s) d (d + n)) := by
  apply does_bind
  apply does_load (hR _ _ (by omega) (by omega))
  apply does_bind
  apply does_load (hR _ _ (by omega) (by omega))
  apply does_bind
  apply does_load (hR _ _ (by omega) (by omega))
  apply does_bind
  apply does_load (hR _ _ (by omega) (by omega))
  apply does_bind
  apply does_store_first (fun i => vec_eq_source rfl le_rfl i)
  apply does_bind
  apply does_store_above (fun i => vec_eq_source (by omega) (by omega) i) (by omega) (by omega)
    (by omega)
  -- the third may lie within the first two
  apply does_bind
  apply does_store_fill (fun i => vec_eq_source (by omega) (by omega) i) (by omega) (by omega)
  rw [min_eq_left (by omega)]
  apply does_store_above (fun i => vec_eq_source (by omega) (by omega) i) (by omega) (by omega)
    (by omega)
  rw [Nat.sub_add_cancel (by omega)]

theorem copySmall_does (hn : n ≤ 16) (hR : ∀ p w, s ≤ p → p + w ≤ s + n → R ⟨p, w⟩) :
    Does (copySmall d s n) R m (fun _ m' => m' = m.fill (source m d s) d (d + n)) := by
  apply does_ite
  · intro h
    exact twoEnds_does h (by omega) hR
  intro h8
  apply does_ite
  · intro h
    exact twoEnds_does h (by omega) hR
  intro h4
  apply does_ite
  · intro h
    exact twoEnds_does h (by omega) hR
  intro h2
  apply does_ite
  · intro h
    have h1 : n = 1 := by omega
    subst h1
    apply does_bind
    apply does_byte (hR s 1 le_rfl (by omega))
    apply does_store_first (fun i => ?_) rfl
    simp only [source]
    congr 1
    omega
  · intro h
    apply does_pure
    rw [Memory.fill_empty (by omega)]

theorem add_sub_mod_mod (d : ℕ) {w : ℕ} (hw : 0 < w) : (d + (w - d % w)) % w = 0 := by
  have hlt := Nat.mod_lt d hw
  have hd := Nat.div_add_mod d w
  have heq : d + (w - d % w) = w * (d / w + 1) := by
    rw [Nat.mul_add, Nat.mul_one]
    omega
  rw [heq, Nat.mul_mod_right]

theorem forwardBlocks_does {turns : ℕ} (hw : 0 < w) (hn : 4 * w < n) (hturns : n < turns)
    (hsafe : d < s ∨ s + n ≤ d) (hR : ∀ p w, s ≤ p → p + w ≤ s + n → R ⟨p, w⟩) :
    Does (forwardBlocks turns w d s n) R m
      (fun _ m' => m' = m.fill (source m d s) d (d + n)) := by
  have hlt := Nat.mod_lt d hw
  apply does_bind
  apply does_load (hR _ _ (by omega) (by omega))
  apply does_bind
  apply does_load (hR _ _ (by omega) (by omega))
  apply does_bind
  apply does_load (hR _ _ (by omega) (by omega))
  apply does_bind
  apply does_load (hR _ _ (by omega) (by omega))
  apply does_bind
  apply does_load (hR _ _ (by omega) (by omega))
  -- what lies between the first aligned address and `q` has been copied, and nothing else
  apply does_loop (fun x m' => x.2 + d = s + x.1 ∧ d + (w - d % w) ≤ x.1 ∧ x.1 % w = 0 ∧
      x.1 ≤ d + n ∧ m' = m.fill (source m d s) (d + (w - d % w)) x.1) (fun x => d + n - x.1)
  · rintro ⟨q, p⟩ m' next ⟨hp, hlo, hq, hhi, rfl⟩ htest hnext
    dsimp only at hp hlo hq hhi
    have htest : q < d + n - 4 * w := of_decide_eq_true htest
    apply does_load_four (fun p hp hp' => hR _ _ (by omega) (by omega))
    -- the four loads do not meet what has been stored
    rw [Memory.fill_vec_of_outside (by omega), Memory.fill_vec_of_outside (by omega),
      Memory.fill_vec_of_outside (by omega), Memory.fill_vec_of_outside (by omega)]
    apply does_bind
    apply does_storeAligned hq
    apply does_bind
    apply does_storeAligned (by rw [Nat.add_mod_right, hq])
    apply does_bind
    apply does_storeAligned (by rw [Nat.add_mul_mod_self_right, hq])
    apply does_bind
    apply does_storeAligned (by rw [Nat.add_mul_mod_self_right, hq])
    rw [put_four_source hp (by omega), Memory.fill_above hlo le_rfl (Nat.le_add_right _ _)]
    apply hnext
    · refine ⟨by dsimp only; omega, by dsimp only; omega, ?_, by dsimp only; omega, rfl⟩
      rw [Nat.add_mul_mod_self_right, hq]
    · dsimp only
      omega
  · rintro ⟨q, p⟩ m' ⟨hp, hlo, hq, hhi, rfl⟩ htest
    dsimp only at hp hlo hq hhi
    have htest : ¬q < d + n - 4 * w := of_decide_eq_false htest
    apply does_bind
    apply does_store_fill (fun i => vec_eq_source (by omega) (by omega) i) (by omega) (by omega)
    rw [min_eq_right (by omega)]
    apply does_bind
    apply does_store
    apply does_bind
    apply does_store
    apply does_bind
    apply does_store
    apply does_store
    rw [Memory.put_four (T := source m d s), Memory.fill_above (by omega) (by omega) (by omega),
      Nat.sub_add_cancel (by omega)]
    · exact fun i => vec_eq_source (by omega) (by omega) i
    · exact fun i => vec_eq_source (by omega) (by omega) i
    · exact fun i => vec_eq_source (by omega) (by omega) i
    · exact fun i => vec_eq_source (by omega) (by omega) i
  · refine ⟨by dsimp only; omega, le_rfl, add_sub_mod_mod d hw, by dsimp only; omega, ?_⟩
    rw [Memory.fill_empty le_rfl]
  · dsimp only
    omega

theorem backwardBlocks_does {turns : ℕ} (hw : 0 < w) (hn : 4 * w < n) (hturns : n < turns)
    (hsafe : s ≤ d) (hR : ∀ p w, s ≤ p → p + w ≤ s + n → R ⟨p, w⟩) :
    Does (backwardBlocks turns w d s n) R m
      (fun _ m' => m' = m.fill (source m d s) d (d + n)) := by
  apply does_load_four (fun p hp hp' => hR _ _ (by omega) (by omega))
  -- the end of the destination, from byte `k` on, has been copied, and nothing else
  apply does_loop (fun k m' => 0 < k ∧ k ≤ n ∧ m' = m.fill (source m d s) (d + k) (d + n))
    (fun k => k)
  · rintro k m' next ⟨hpos, hle, rfl⟩ htest hnext
    have htest : 4 * w < k := of_decide_eq_true htest
    apply does_load_four (fun p hp hp' => hR _ _ (by omega) (by omega))
    rw [Memory.fill_vec_of_outside (by omega), Memory.fill_vec_of_outside (by omega),
      Memory.fill_vec_of_outside (by omega), Memory.fill_vec_of_outside (by omega)]
    -- the four stores are a range of their own, which then meets the one above it
    apply does_bind
    apply does_store
    apply does_bind
    apply does_store
    apply does_bind
    apply does_store
    apply does_bind
    apply does_store
    have hplace : s + (k - 4 * w) + d = s + (d + (k - 4 * w)) := by omega
    rw [put_four_source hplace (Nat.le_add_right _ _),
      Memory.fill_below (by omega) (by omega) (by omega)]
    exact hnext _ _ ⟨by omega, by omega, rfl⟩ (by omega)
  · rintro k m' ⟨hpos, hle, rfl⟩ htest
    have htest : ¬4 * w < k := of_decide_eq_false htest
    apply does_bind
    apply does_store
    apply does_bind
    apply does_store
    apply does_bind
    apply does_store
    apply does_store
    rw [put_four_source rfl le_rfl, Memory.fill_below (by omega) (by omega) (by omega)]
  · refine ⟨by omega, le_rfl, ?_⟩
    rw [Memory.fill_empty le_rfl]
  · exact hturns

theorem moveShort_does {turns : ℕ} (hlo : 16 < n) (hturns : n < turns)
    (hR : ∀ p w, s ≤ p → p + w ≤ s + n → R ⟨p, w⟩) :
    Does (moveShort turns d s n) R m (fun _ m' => m' = m.fill (source m d s) d (d + n)) := by
  -- the loads: the array holds the vectors of the source below `i`
  apply does_loop (fun x m' => m' = m ∧ x.1 + 1 ≤ (n + 15) / 16 ∧
      ∀ j < x.1, x.2 j = m.vec 16 (s + 16 * j)) (fun x => (n + 15) / 16 - x.1)
  · rintro ⟨i, v⟩ m' next ⟨rfl, hi, hv⟩ htest hnext
    dsimp only at hi hv
    have htest : i + 1 < (n + 15) / 16 := of_decide_eq_true htest
    apply does_bind
    apply does_load (hR _ _ (by omega) (by omega))
    apply hnext
    · refine ⟨rfl, by dsimp only; omega, ?_⟩
      intro j hj
      dsimp only at hj ⊢
      rcases Nat.lt_succ_iff_lt_or_eq.mp hj with hji | hji
      · rw [Function.update_of_ne (Nat.ne_of_lt hji), hv j hji]
      · rw [hji, Function.update_self]
    · change (n + 15) / 16 - (i + 1) < (n + 15) / 16 - i
      omega
  · rintro ⟨i, v⟩ m' ⟨rfl, hi, hv⟩ htest
    dsimp only at hi hv
    have htest : ¬i + 1 < (n + 15) / 16 := of_decide_eq_false htest
    apply does_bind
    apply does_load (hR _ _ (by omega) (by omega))
    apply does_loop (fun j m'' => j + 1 ≤ (n + 15) / 16 ∧
        m'' = m'.fill (source m' d s) d (d + 16 * j)) (fun j => (n + 15) / 16 - j)
    · rintro j m'' next ⟨hj, rfl⟩ htest' hnext
      have htest' : j + 1 < (n + 15) / 16 := of_decide_eq_true htest'
      apply does_bind
      rw [Function.update_of_ne (by omega)]
      dsimp only
      rw [hv j (by omega)]
      apply does_store_fill (fun i => vec_eq_source (by omega) (by omega) i) (by omega) (by omega)
      apply hnext
      · refine ⟨by omega, ?_⟩
        congr 1 <;> omega
      · omega
    · rintro j m'' ⟨hj, rfl⟩ htest'
      have htest' : ¬j + 1 < (n + 15) / 16 := of_decide_eq_false htest'
      rw [Function.update_self]
      apply does_store_fill (fun i => vec_eq_source (by omega) (by omega) i) (by omega) (by omega)
      congr 1 <;> omega
    · refine ⟨by omega, ?_⟩
      rw [Memory.fill_empty (by omega)]
    · omega
  · refine ⟨rfl, by dsimp only; omega, ?_⟩
    intro j hj
    exact absurd hj (Nat.not_lt_zero j)
  · dsimp only
    omega

end Pieces

/-! ## What `memcpy` and `memmove` do -/

section Copies

variable {R : Load → Prop} {m : Memory} {turns d s n : ℕ}

/-- The copy is done, and the destination returned. -/
def Copied (m : Memory) (d s n v : ℕ) (m' : Memory) : Prop :=
  v = d ∧ m' = m.fill (source m d s) d (d + n)

theorem does_then_pure {x : Program Unit}
    (h : Does x R m (fun _ m' => m' = m.fill (source m d s) d (d + n))) :
    Does (x >>= fun _ => pure d) R m (Copied m d s n) := by
  apply does_bind
  refine h.mono (fun _ => id) ?_
  intro _ m' hm'
  exact does_pure ⟨rfl, hm'⟩

theorem copy16_does (hlo : 32 < n) (hturns : n < turns) (hsafe : d < s ∨ s + n ≤ d)
    (hR : ∀ p w, s ≤ p → p + w ≤ s + n → R ⟨p, w⟩) :
    Does (copy16 turns d s n) R m (fun _ m' => m' = m.fill (source m d s) d (d + n)) := by
  apply does_ite
  · intro h
    exact fourEnds_does (by omega) (by omega) hR
  · intro h
    exact forwardBlocks_does (by omega) (by omega) hturns hsafe hR

theorem copy32_does (hlo : 32 < n) (hturns : n < turns) (hsafe : d < s ∨ s + n ≤ d)
    (hR : ∀ p w, s ≤ p → p + w ≤ s + n → R ⟨p, w⟩) :
    Does (copy32 turns d s n) R m (fun _ m' => m' = m.fill (source m d s) d (d + n)) := by
  apply does_ite
  · intro h
    exact twoEnds_does (by omega) (by omega) hR
  intro h64
  apply does_ite
  · intro h
    exact fourEnds_does (by omega) (by omega) hR
  · intro h
    exact forwardBlocks_does (by omega) (by omega) hturns hsafe hR

theorem copyback16_does (hlo : 64 < n) (hturns : n < turns) (hsafe : s ≤ d)
    (hR : ∀ p w, s ≤ p → p + w ≤ s + n → R ⟨p, w⟩) :
    Does (copyback16 turns d s n) R m (fun _ m' => m' = m.fill (source m d s) d (d + n)) :=
  backwardBlocks_does (by omega) (by omega) hturns hsafe hR

theorem copyback32_does (hlo : 64 < n) (hturns : n < turns) (hsafe : s ≤ d)
    (hR : ∀ p w, s ≤ p → p + w ≤ s + n → R ⟨p, w⟩) :
    Does (copyback32 turns d s n) R m (fun _ m' => m' = m.fill (source m d s) d (d + n)) := by
  apply does_ite
  · intro h
    exact fourEnds_does (by omega) (by omega) hR
  · intro h
    exact backwardBlocks_does (by omega) (by omega) hturns hsafe hR

theorem memcpyWide_does {copy : Program Unit} (hR : ∀ p w, s ≤ p → p + w ≤ s + n → R ⟨p, w⟩)
    (hcopy : 32 < n → Does copy R m (fun _ m' => m' = m.fill (source m d s) d (d + n))) :
    Does (memcpyWide copy d s n) R m (Copied m d s n) := by
  apply does_then_pure
  apply does_ite
  · intro h
    exact copySmall_does h hR
  intro h16
  apply does_ite
  · intro h
    exact twoEnds_does (by omega) (by omega) hR
  · intro h
    exact hcopy (by omega)

/-- Where the subtraction of addresses sends a copy forward, the destination does not begin inside
the source. -/
theorem forward_safe {bits : ℕ} (hd : d + n ≤ 2 ^ bits) (hpos : 0 < n) (h : n ≤ distance bits d s) :
    d < s ∨ s + n ≤ d := by
  by_contra hcon
  have heq : distance bits d s = d - s := by
    have hsub : d + 2 ^ bits - s = d - s + 2 ^ bits := by omega
    rw [distance, hsub, Nat.add_mod_right, Nat.mod_eq_of_lt (by omega)]
  omega

/-- Where it does not, the destination does not begin below the source. -/
theorem backward_safe {bits : ℕ} (hs : s + n ≤ 2 ^ bits) (h : ¬n ≤ distance bits d s) :
    s ≤ d := by
  by_contra hcon
  have heq : distance bits d s = d + 2 ^ bits - s := by
    rw [distance, Nat.mod_eq_of_lt (by omega)]
  omega

theorem memmoveWide_does {forward : Program ℕ} {back : Program Unit} (hs : s + n ≤ 2 ^ 64)
    (hd : d + n ≤ 2 ^ 64) (hturns : n < turns) (hR : ∀ p w, s ≤ p → p + w ≤ s + n → R ⟨p, w⟩)
    (hforward : (32 < n → d < s ∨ s + n ≤ d) → Does forward R m (Copied m d s n))
    (hback : 64 < n → s ≤ d → Does back R m (fun _ m' => m' = m.fill (source m d s) d (d + n))) :
    Does (memmoveWide forward back turns d s n) R m (Copied m d s n) := by
  apply does_ite
  · intro h
    exact hforward (fun hpos => forward_safe hd (by omega) h)
  intro hin
  apply does_then_pure
  apply does_ite
  · intro h
    exact copySmall_does h hR
  intro h16
  apply does_ite
  · intro h
    exact moveShort_does (by omega) hturns hR
  · intro h
    exact hback (by omega) (backward_safe hs hin)

/-- What a loop of `copy_forward` has done when `k` bytes are left: those below have been copied. -/
def Forwarded (m : Memory) (d s n : ℕ) (x : ℕ × ℕ × ℕ) (m' : Memory) : Prop :=
  x.1 ≤ n ∧ x.2.1 = d + (n - x.1) ∧ x.2.2 = s + (n - x.1) ∧
    m' = m.fill (source m d s) d x.2.1

theorem copyForward_does (hturns : n < turns) (hsafe : 16 < n → d < s ∨ s + n ≤ d)
    (hR : ∀ p w, s ≤ p → p + w ≤ s + n → R ⟨p, w⟩) :
    Does (copyForward turns d s n) R m (fun _ m' => m' = m.fill (source m d s) d (d + n)) := by
  apply does_ite
  · intro h
    exact copySmall_does h hR
  intro h16
  replace hsafe := hsafe (by omega)
  apply does_loop (Forwarded m d s n) (fun x => x.1)
  · rintro ⟨k, q, p⟩ m' next ⟨hk, hq, hp, rfl⟩ htest hnext
    dsimp only at hk hq hp ⊢
    have htest : 8 ≤ k := of_decide_eq_true htest
    apply does_bind
    apply does_load (hR _ _ (by omega) (by omega))
    rw [Memory.fill_vec_of_outside (by omega)]
    apply does_bind
    apply does_store_fill (fun i => vec_eq_source (by omega) (by omega) i) (by omega) (by omega)
    apply hnext
    · refine ⟨by dsimp only; omega, by dsimp only; omega, by dsimp only; omega, ?_⟩
      dsimp only
      congr 1 <;> omega
    · dsimp only
      omega
  · rintro ⟨k, q, p⟩ m' hx htest
    have hk : k < 8 := Nat.lt_of_not_le (of_decide_eq_false htest)
    apply does_loop (Forwarded m d s n) (fun x => x.1)
    · rintro ⟨k, q, p⟩ m' next ⟨hk, hq, hp, rfl⟩ htest hnext
      dsimp only at hk hq hp ⊢
      have htest : k ≠ 0 := of_decide_eq_true htest
      apply does_bind
      apply does_byte (hR p 1 (by omega) (by omega))
      rw [Memory.fill_of_outside (by omega)]
      apply does_bind
      apply does_store_fill (fun i => ?_) (by omega) (by omega)
      · apply hnext
        · refine ⟨by dsimp only; omega, by dsimp only; omega, by dsimp only; omega, ?_⟩
          dsimp only
          congr 1 <;> omega
        · dsimp only
          omega
      · simp only [source]
        congr 1
        omega
    · rintro ⟨k, q, p⟩ m' ⟨hk, hq, hp, rfl⟩ htest
      dsimp only at hk hq hp ⊢
      have htest : ¬k ≠ 0 := of_decide_eq_false htest
      apply does_pure
      congr 1
      omega
    · exact hx
    · dsimp only
      omega
  · refine ⟨le_rfl, by dsimp only; omega, by dsimp only; omega, ?_⟩
    rw [Memory.fill_empty le_rfl]
  · exact hturns

theorem memmoveWords_does {bits : ℕ} (hs : s + n ≤ 2 ^ bits) (hd : d + n ≤ 2 ^ bits)
    (hturns : n < turns) (hR : ∀ p w, s ≤ p → p + w ≤ s + n → R ⟨p, w⟩) :
    Does (memmoveWords bits turns d s n) R m (Copied m d s n) := by
  apply does_ite
  · intro h
    exact does_then_pure
      (copyForward_does hturns (fun _ => forward_safe hd (by omega) h) hR)
  intro hin
  have hsafe := backward_safe hs hin
  apply does_ite
  · intro h
    exact does_then_pure (copySmall_does h hR)
  intro h16
  apply does_loop (fun k m' => k ≤ n ∧ m' = m.fill (source m d s) (d + k) (d + n)) (fun k => k)
  · rintro k m' next ⟨hk, rfl⟩ htest hnext
    have htest : 8 ≤ k := of_decide_eq_true htest
    apply does_bind
    apply does_load (hR _ _ (by omega) (by omega))
    rw [Memory.fill_vec_of_outside (by omega)]
    apply does_bind
    apply does_store_fill (fun i => vec_eq_source (by omega) (by omega) i) (by omega) (by omega)
    apply hnext
    · refine ⟨by omega, ?_⟩
      congr 1 <;> omega
    · omega
  · rintro k m' hx htest
    have hk : k < 8 := Nat.lt_of_not_le (of_decide_eq_false htest)
    apply does_loop (fun k m' => k ≤ n ∧ m' = m.fill (source m d s) (d + k) (d + n)) (fun k => k)
    · rintro k m' next ⟨hk, rfl⟩ htest hnext
      have htest : k ≠ 0 := of_decide_eq_true htest
      apply does_bind
      apply does_byte (hR _ 1 (by omega) (by omega))
      rw [Memory.fill_of_outside (by omega)]
      apply does_bind
      apply does_store_fill (fun i => ?_) (by omega) (by omega)
      · apply hnext
        · refine ⟨by omega, ?_⟩
          congr 1 <;> omega
        · omega
      · simp only [source]
        congr 1
        omega
    · rintro k m' ⟨hk, rfl⟩ htest
      have htest : ¬k ≠ 0 := of_decide_eq_false htest
      apply does_pure
      refine ⟨rfl, ?_⟩
      congr 1
      omega
    · exact hx
    · omega
  · refine ⟨le_rfl, ?_⟩
    rw [Memory.fill_empty le_rfl]
  · exact hturns

/-- `memcpy` in every variant, where the destination does not begin inside the source. -/
theorem memcpy_does (V : Variant) (hturns : n < turns) (hsafe : d < s ∨ s + n ≤ d)
    (hR : ∀ p w, s ≤ p → p + w ≤ s + n → R ⟨p, w⟩) :
    Does (V.memcpy turns d s n) R m (Copied m d s n) := by
  cases V with
  | avx2 => exact memcpyWide_does hR (fun h => copy32_does h hturns hsafe hR)
  | sse2 => exact memcpyWide_does hR (fun h => copy16_does h hturns hsafe hR)
  | neon => exact memcpyWide_does hR (fun h => copy16_does h hturns hsafe hR)
  | words order size => exact does_then_pure (copyForward_does hturns (fun _ => hsafe) hR)

/-- `memmove` in every variant, however the ranges overlap. -/
theorem memmove_does (V : Variant) (hturns : n < turns) (hs : s + n ≤ 2 ^ V.addressBits)
    (hd : d + n ≤ 2 ^ V.addressBits) (hR : ∀ p w, s ≤ p → p + w ≤ s + n → R ⟨p, w⟩) :
    Does (V.memmove turns d s n) R m (Copied m d s n) := by
  cases V with
  | avx2 =>
    refine memmoveWide_does hs hd hturns hR (fun hsafe => ?_)
      (fun h hback => copyback32_does h hturns hback hR)
    exact memcpyWide_does hR (fun h => copy32_does h hturns (hsafe h) hR)
  | sse2 | neon =>
    refine memmoveWide_does hs hd hturns hR (fun hsafe => ?_)
      (fun h hback => copyback16_does h hturns hback hR)
    exact memcpyWide_does hR (fun h => copy16_does h hturns (hsafe h) hR)
  | words order size => exact memmoveWords_does hs hd hturns hR

end Copies

/-! ## What `memset` does -/

section Sets

variable {R : Load → Prop} {m : Memory} {turns d n w : ℕ} {c : UInt8}

theorem repeated_eq (b : UInt8) : repeated b = b.toNat * repunit 8 := by
  have hb : b.toNat < 256 := b.toNat_lt
  change b.toNat * 0x0101010101010101 % 2 ^ 64 = b.toNat * 0x0101010101010101
  omega

theorem repeated_half_eq (b : UInt8) : repeated b % 2 ^ 32 = b.toNat * repunit 4 := by
  have hb : b.toNat < 256 := b.toNat_lt
  rw [repeated_eq]
  change b.toNat * 0x0101010101010101 % 2 ^ 32 = b.toNat * 0x01010101
  omega

/-- Every byte of a word of a repeated byte is the byte. -/
theorem wordVec_repunit (order : ByteOrder) (b : UInt8) {k : ℕ} (i : Fin k) :
    wordVec order k (b.toNat * repunit k) i = b := by
  have hb : b.toNat < 256 := b.toNat_lt
  cases order with
  | little =>
    simp only [wordVec]
    rw [mul_repunit_byte hb i.isLt, UInt8.ofNat_toNat]
  | big =>
    simp only [wordVec]
    rw [mul_repunit_byte hb (by omega), UInt8.ofNat_toNat]

theorem setTwoEnds_does {v : Vec w} (hv : ∀ i, v i = c) (hw : w ≤ n) (hn : n ≤ 2 * w) :
    Does (setTwoEnds d v n) R m (fun _ m' => m' = m.fill (fun _ => c) d (d + n)) := by
  apply does_bind
  apply does_store_first (T := fun _ => c) hv
  apply does_store_above hv (by omega) (by omega) (by omega)
  rw [Nat.sub_add_cancel (by omega)]

theorem setFourEnds_does {v : Vec w} (hv : ∀ i, v i = c) (hw : 2 * w ≤ n) (hn : n ≤ 4 * w) :
    Does (setFourEnds d v n) R m (fun _ m' => m' = m.fill (fun _ => c) d (d + n)) := by
  apply does_bind
  apply does_store_first (T := fun _ => c) hv
  apply does_bind
  apply does_store_above hv (by omega) (by omega) (by omega)
  apply does_bind
  apply does_store_fill hv (by omega) (by omega)
  rw [min_eq_left (by omega)]
  apply does_store_above hv (by omega) (by omega) (by omega)
  rw [Nat.sub_add_cancel (by omega)]

theorem setBlocks_does {v : Vec w} (hv : ∀ i, v i = c) (hw : 0 < w) (hn : 4 * w < n)
    (hturns : n < turns) :
    Does (setBlocks turns d v n) R m (fun _ m' => m' = m.fill (fun _ => c) d (d + n)) := by
  have hstart : (d + w) / w * w ≤ d + w := Nat.div_mul_le_self (d + w) w
  have hstart' : d < (d + w) / w * w := by
    have hmod := Nat.div_add_mod (d + w) w
    have hlt := Nat.mod_lt (d + w) hw
    rw [Nat.mul_comm] at hmod
    omega
  apply does_bind
  apply does_store_first (T := fun _ => c) hv
  apply does_loop (fun q m' => d < q ∧ q % w = 0 ∧ q ≤ d + n ∧
      m' = m.fill (fun _ => c) d (max q (d + w))) (fun q => d + n - q)
  · rintro q m' next ⟨hlo, hq, hhi, rfl⟩ htest hnext
    have htest : q < d + n - 4 * w := of_decide_eq_true htest
    apply does_bind
    apply does_storeAligned hq
    apply does_bind
    apply does_storeAligned (by rw [Nat.add_mod_right, hq])
    apply does_bind
    apply does_storeAligned (by rw [Nat.add_mul_mod_self_right, hq])
    apply does_bind
    apply does_storeAligned (by rw [Nat.add_mul_mod_self_right, hq])
    rw [Memory.put_four (T := fun _ => c) hv hv hv hv,
      Memory.fill_above (by omega) (by omega) (by omega)]
    apply hnext
    · refine ⟨by omega, by rw [Nat.add_mul_mod_self_right, hq], by omega, ?_⟩
      rw [max_eq_left (by omega)]
    · omega
  · rintro q m' ⟨hlo, hq, hhi, rfl⟩ htest
    have htest : ¬q < d + n - 4 * w := of_decide_eq_false htest
    apply does_bind
    apply does_store
    apply does_bind
    apply does_store
    apply does_bind
    apply does_store
    apply does_store
    rw [Memory.put_four (T := fun _ => c) hv hv hv hv,
      Memory.fill_above (by omega) (by omega) (by omega), Nat.sub_add_cancel (by omega)]
  · refine ⟨hstart', Nat.mul_mod_left _ w, by omega, ?_⟩
    rw [max_eq_right hstart]
  · omega

theorem setSmall_does (hn : n < 16) :
    Does (setSmall d c n) R m (fun _ m' => m' = m.fill (fun _ => c) d (d + n)) := by
  apply does_ite
  · intro h
    rw [repeated_eq]
    exact setTwoEnds_does (wordVec_repunit _ c) (by omega) (by omega)
  intro h8
  apply does_ite
  · intro h
    rw [repeated_half_eq]
    exact setTwoEnds_does (wordVec_repunit _ c) (by omega) (by omega)
  intro h4
  apply does_ite
  · intro h
    apply does_bind
    apply does_store_first (T := fun _ => c) (fun _ => rfl)
    apply does_bind
    apply does_store_fill (fun _ => rfl) (by omega) (by omega)
    apply does_store_fill (fun _ => rfl) (by omega) (by omega)
    congr 1 <;> omega
  · intro h
    apply does_pure
    rw [Memory.fill_empty (by omega)]

/-- The destination is set, and returned. -/
def Filled (m : Memory) (d : ℕ) (c : UInt8) (n v : ℕ) (m' : Memory) : Prop :=
  v = d ∧ m' = m.fill (fun _ => c) d (d + n)

theorem memsetWide_does {set : Program Unit}
    (hset : 32 < n → Does set R m (fun _ m' => m' = m.fill (fun _ => c) d (d + n))) :
    Does (memsetWide set d c n) R m (Filled m d c n) := by
  apply does_bind
  have hbody : Does (if n < 16 then setSmall d c n
      else if n ≤ 32 then setTwoEnds d (fun _ : Fin 16 => c) n else set) R m
      (fun _ m' => m' = m.fill (fun _ => c) d (d + n)) := by
    apply does_ite
    · intro h
      exact setSmall_does h
    intro h16
    apply does_ite
    · intro h
      exact setTwoEnds_does (fun _ => rfl) (by omega) (by omega)
    · intro h
      exact hset (by omega)
  refine hbody.mono (fun _ => id) ?_
  intro _ m' hm'
  exact does_pure ⟨rfl, hm'⟩

theorem set16_does (hlo : 32 < n) (hturns : n < turns) :
    Does (set16 turns d c n) R m (fun _ m' => m' = m.fill (fun _ => c) d (d + n)) := by
  apply does_ite
  · intro h
    exact setFourEnds_does (fun _ => rfl) (by omega) (by omega)
  · intro h
    exact setBlocks_does (fun _ => rfl) (by omega) (by omega) hturns

theorem set32_does (hlo : 32 < n) (hturns : n < turns) :
    Does (set32 turns d c n) R m (fun _ m' => m' = m.fill (fun _ => c) d (d + n)) := by
  apply does_ite
  · intro h
    exact setTwoEnds_does (fun _ => rfl) (by omega) (by omega)
  intro h64
  apply does_ite
  · intro h
    exact setFourEnds_does (fun _ => rfl) (by omega) (by omega)
  · intro h
    exact setBlocks_does (fun _ => rfl) (by omega) (by omega) hturns

theorem memsetWords_does (order : ByteOrder) (hturns : n < turns) :
    Does (memsetWords order turns d c n) R m (Filled m d c n) := by
  apply does_loop (fun x m' => x.1 ≤ n ∧ x.2 = d + (n - x.1) ∧ m' = m.fill (fun _ => c) d x.2)
    (fun x => x.1)
  · rintro ⟨k, q⟩ m' next ⟨hk, hq, rfl⟩ htest hnext
    dsimp only at hk hq ⊢
    have htest : 8 ≤ k := of_decide_eq_true htest
    apply does_bind
    rw [repeated_eq]
    apply does_store_fill (wordVec_repunit order c) (by omega) (by omega)
    apply hnext
    · refine ⟨by dsimp only; omega, by dsimp only; omega, ?_⟩
      dsimp only
      congr 1 <;> omega
    · dsimp only
      omega
  · rintro ⟨k, q⟩ m' hx htest
    have hk : k < 8 := Nat.lt_of_not_le (of_decide_eq_false htest)
    apply does_loop (fun x m' => x.1 ≤ n ∧ x.2 = d + (n - x.1) ∧ m' = m.fill (fun _ => c) d x.2)
      (fun x => x.1)
    · rintro ⟨k, q⟩ m' next ⟨hk, hq, rfl⟩ htest hnext
      dsimp only at hk hq ⊢
      have htest : k ≠ 0 := of_decide_eq_true htest
      apply does_bind
      apply does_store_fill (fun _ => rfl) (by omega) (by omega)
      apply hnext
      · refine ⟨by dsimp only; omega, by dsimp only; omega, ?_⟩
        dsimp only
        congr 1 <;> omega
      · dsimp only
        omega
    · rintro ⟨k, q⟩ m' ⟨hk, hq, rfl⟩ htest
      dsimp only at hk hq ⊢
      have htest : ¬k ≠ 0 := of_decide_eq_false htest
      apply does_pure
      refine ⟨rfl, ?_⟩
      congr 1
      omega
    · exact hx
    · have hle : k ≤ n := hx.1
      exact Nat.lt_of_le_of_lt hle hturns
  · refine ⟨le_rfl, by dsimp only; omega, ?_⟩
    rw [Memory.fill_empty le_rfl]
  · exact hturns

/-- `memset` in every variant; it loads nothing. -/
theorem memset_does (V : Variant) (hturns : n < turns) :
    Does (V.memset turns d c n) R m (Filled m d c n) := by
  cases V with
  | avx2 => exact memsetWide_does (fun h => set32_does h hturns)
  | sse2 => exact memsetWide_does (fun h => set16_does h hturns)
  | neon => exact memsetWide_does (fun h => set16_does h hturns)
  | words order size => exact memsetWords_does order hturns

end Sets

/-! ## The functions a byte at a time -/

section Bytewise

variable {R : Load → Prop} {m : Memory} {turns d s n : ℕ} {c : UInt8}

theorem byte_eq_source {p q : ℕ} (h : p + d = s + q) (hd : d ≤ q) :
    m p = source m d s (q + 0) := by
  simp only [source]
  congr 1
  omega

theorem Plain.memcpy_does (hturns : n < turns) (hsafe : d < s ∨ s + n ≤ d)
    (hR : ∀ p w, s ≤ p → p + w ≤ s + n → R ⟨p, w⟩) :
    Does (Plain.memcpy turns d s n) R m (Copied m d s n) := by
  apply does_loop (fun i m' => i ≤ n ∧ m' = m.fill (source m d s) d (d + i)) (fun i => n - i)
  · rintro i m' next ⟨hi, rfl⟩ htest hnext
    have htest : i < n := of_decide_eq_true htest
    apply does_bind
    apply does_byte (hR _ 1 (by omega) (by omega))
    rw [Memory.fill_of_outside (by omega)]
    apply does_bind
    apply does_store_fill (fun j => ?_) (by omega) (by omega)
    · apply hnext
      · refine ⟨by omega, ?_⟩
        congr 1 <;> omega
      · omega
    · rw [Fin.val_eq_zero]
      exact byte_eq_source (by omega) (by omega)
  · rintro i m' ⟨hi, rfl⟩ htest
    have htest : ¬i < n := of_decide_eq_false htest
    apply does_pure
    refine ⟨rfl, ?_⟩
    congr 1
    omega
  · refine ⟨by omega, ?_⟩
    rw [Memory.fill_empty (by omega)]
  · omega

theorem Plain.memmove_does (hturns : n < turns) (hR : ∀ p w, s ≤ p → p + w ≤ s + n → R ⟨p, w⟩) :
    Does (Plain.memmove turns d s n) R m (Copied m d s n) := by
  apply does_ite
  · intro h
    exact Plain.memcpy_does hturns (Or.inl h) hR
  intro hsafe
  apply does_loop (fun k m' => k ≤ n ∧ m' = m.fill (source m d s) (d + k) (d + n)) (fun k => k)
  · rintro k m' next ⟨hk, rfl⟩ htest hnext
    have htest : k ≠ 0 := of_decide_eq_true htest
    apply does_bind
    apply does_byte (hR _ 1 (by omega) (by omega))
    rw [Memory.fill_of_outside (by omega)]
    apply does_bind
    apply does_store_fill (fun j => ?_) (by omega) (by omega)
    · apply hnext
      · refine ⟨by omega, ?_⟩
        congr 1 <;> omega
      · omega
    · rw [Fin.val_eq_zero]
      exact byte_eq_source (by omega) (by omega)
  · rintro k m' ⟨hk, rfl⟩ htest
    have htest : ¬k ≠ 0 := of_decide_eq_false htest
    apply does_pure
    refine ⟨rfl, ?_⟩
    congr 1
    omega
  · refine ⟨le_rfl, ?_⟩
    rw [Memory.fill_empty le_rfl]
  · exact hturns

theorem Plain.memset_does (hturns : n < turns) :
    Does (Plain.memset turns d c n) R m (Filled m d c n) := by
  apply does_loop (fun i m' => i ≤ n ∧ m' = m.fill (fun _ => c) d (d + i)) (fun i => n - i)
  · rintro i m' next ⟨hi, rfl⟩ htest hnext
    have htest : i < n := of_decide_eq_true htest
    apply does_bind
    apply does_store_fill (fun _ => rfl) (by omega) (by omega)
    apply hnext
    · refine ⟨by omega, ?_⟩
      congr 1 <;> omega
    · omega
  · rintro i m' ⟨hi, rfl⟩ htest
    have htest : ¬i < n := of_decide_eq_false htest
    apply does_pure
    refine ⟨rfl, ?_⟩
    congr 1
    omega
  · refine ⟨by omega, ?_⟩
    rw [Memory.fill_empty (by omega)]
  · omega

end Bytewise

/-! ## Every variant leaves the memory the bytewise function leaves -/

/-- Both programs return the destination and leave one memory, in which the destination holds the
values and every other byte is as it was. -/
def WritesAlike (fast plain : Program ℕ) (m : Memory) (d n : ℕ) (value : ℕ → UInt8) : Prop :=
  ∃ m', Returns fast m d m' ∧ Returns plain m d m' ∧ (∀ i < n, m' (d + i) = value i) ∧
    ∀ a, a < d ∨ d + n ≤ a → m' a = m a

theorem writesAlike_of_fill {fast plain : Program ℕ} {m : Memory} {d n : ℕ} {T : ℕ → UInt8}
    (hfast : Does fast (fun _ => True) m (fun v m' => v = d ∧ m' = m.fill T d (d + n)))
    (hplain : Does plain (fun _ => True) m (fun v m' => v = d ∧ m' = m.fill T d (d + n)))
    {value : ℕ → UInt8} (hvalue : ∀ i < n, T (d + i) = value i) :
    WritesAlike fast plain m d n value := by
  refine ⟨m.fill T d (d + n), hfast.returns, hplain.returns, ?_, ?_⟩
  · intro i hi
    rw [Memory.fill, if_pos (by omega), hvalue i hi]
  · intro a ha
    exact Memory.fill_of_outside ha

/-- In every variant, for ranges inside the address space: `memcpy` of ranges that do not overlap,
`memmove` of any ranges and `memset` leave memory as the bytewise functions do. -/
theorem copies_eq_plain (V : Variant) (m : Memory) {turns d s n : ℕ} (c : UInt8)
    (hturns : n < turns)
    (hs : s + n ≤ 2 ^ V.addressBits) (hd : d + n ≤ 2 ^ V.addressBits) :
    ((d + n ≤ s ∨ s + n ≤ d) →
      WritesAlike (V.memcpy turns d s n) (Plain.memcpy turns d s n) m d n (fun i => m (s + i))) ∧
    WritesAlike (V.memmove turns d s n) (Plain.memmove turns d s n) m d n (fun i => m (s + i)) ∧
    WritesAlike (V.memset turns d c n) (Plain.memset turns d c n) m d n (fun _ => c) := by
  have hvalue : ∀ i < n, source m d s (d + i) = m (s + i) := by
    intro i _
    rw [source, Nat.add_sub_cancel_left]
  have hany : ∀ p w, s ≤ p → p + w ≤ s + n → True := fun _ _ _ _ => trivial
  refine ⟨?_, ?_, ?_⟩
  · intro hdisj
    have hsafe : d < s ∨ s + n ≤ d := by omega
    exact writesAlike_of_fill (memcpy_does V hturns hsafe hany)
      (Plain.memcpy_does hturns hsafe hany) hvalue
  · exact writesAlike_of_fill (memmove_does V hturns hs hd hany)
      (Plain.memmove_does hturns hany) hvalue
  · exact writesAlike_of_fill (memset_does V hturns) (Plain.memset_does hturns) (fun _ _ => rfl)

/-- The overlapping move by one byte of two hundred, over thirty-two bytes at a time. -/
theorem copies_eq_plain_moveUp :
    200 < 201 ∧ WritesAlike (Variant.avx2.memmove 201 1001 1000 200)
      (Plain.memmove 201 1001 1000 200)
      (fun a => UInt8.ofNat a) 1001 200 (fun i => UInt8.ofNat (1000 + i)) :=
  ⟨by decide, (copies_eq_plain .avx2 (fun a => UInt8.ofNat a) 0 (by decide) (by decide)
    (by decide)).2.1⟩

end OpenkalMusl.Strings
