import OpenkalMusl.Strings.Scan

/-!
# Searching memory and strings for a byte

`memchr` and `strchr` in every variant of `okm_string.c`. The first four vectors are read where they
are when the page holds them; the aligned search goes on from there.

Addresses are compared as integers and the end of a search is cut to the last one, so a length may
be larger than what is left of the address space when the byte occurs. No object lies in the last
page of the address space, so a pointer into a page that was reached does not wrap.

## Main definitions

* `Strings.Variant.memchr`, `Strings.Variant.strchr`

## Main results

* `Strings.memchr_does`, `Strings.strchr_does`: what each returns, and the pages it loads from
-/

namespace OpenkalMusl.Strings

open Bytes Bytes.Program

/-! ## The functions -/

/-- The end of a search, cut to the last address. -/
def searchEnd (s n : ℕ) : ℕ := if uintptrMax - s < n then uintptrMax else s + n

/-- `memchr16` and `memchr32`. -/
def memchrWide (N : Narrowing) (turns s : ℕ) (c : UInt8) (n : ℕ) : Program (Option ℕ) :=
  let w := N.width
  let finish := searchEnd s n
  if n = 0 then pure none
  else if 4 * w ≤ toPageEnd s then
    loop (fun k => k < 4 * w)
      (fun k next => do
        let x ← load w (s + k)
        let mask := N.mask (Vec.same x (Vec.splat w c))
        if mask ≠ 0#N.register then pure (below finish (s + k + N.first mask))
        else if n ≤ k + w then pure none
        else next (k + w))
      (fun _ => scan N turns (s + 4 * w) c false finish) turns 0
  else scan N turns s c false finish

/-- `q && *q == c`. -/
def holding (c : UInt8) : Option ℕ → Program (Option ℕ)
  | none => pure none
  | some q => do
    let b ← byte q
    pure (if b = c then some q else none)

/-- `strchr16` and `strchr32`. -/
def strchrWide (N : Narrowing) (turns s : ℕ) (c : UInt8) : Program (Option ℕ) :=
  let w := N.width
  if 4 * w ≤ toPageEnd s then
    loop (fun x : ℕ × Option ℕ => x.1 < 4 * w ∧ x.2 = none)
      (fun x next => do
        let v ← load w (s + x.1)
        let mask := N.mask (Vec.either (Vec.same v (Vec.splat w c)) (Vec.same v (Vec.splat w 0)))
        next (x.1 + w, if mask ≠ 0#N.register then some (s + x.1 + N.first mask) else x.2))
      (fun x =>
        match x.2 with
        | some q => holding c (some q)
        | none => do
          let q ← scan N turns (s + 4 * w) c true uintptrMax
          holding c q)
      turns (0, none)
  else do
    let q ← scan N turns s c true uintptrMax
    holding c q

def memchrWords (turns s : ℕ) (c : UInt8) (n : ℕ) : Program (Option ℕ) :=
  loop (fun x : ℕ × ℕ => x.1 ≠ 0)
    (fun x next => do
      let a ← byte x.2
      if a = c then pure (some x.2) else next (x.1 - 1, x.2 + 1))
    (fun _ => pure none) turns (n, s)

def strchrWords (turns s : ℕ) (c : UInt8) : Program (Option ℕ) :=
  loop (fun _ => true)
    (fun p next => do
      let a ← byte p
      if a = c then pure (some p) else if a = 0 then pure none else next (p + 1))
    (fun _ => fault) turns s

def Variant.memchr (V : Variant) (turns s : ℕ) (c : UInt8) (n : ℕ) : Program (Option ℕ) :=
  match V with
  | .avx2 => memchrWide Strings.avx2 turns s c n
  | .sse2 => memchrWide Strings.sse2 turns s c n
  | .neon => memchrWide Strings.neon turns s c n
  | .words _ _ => memchrWords turns s c n

def Variant.strchr (V : Variant) (turns s : ℕ) (c : UInt8) : Program (Option ℕ) :=
  match V with
  | .avx2 => strchrWide Strings.avx2 turns s c
  | .sse2 => strchrWide Strings.sse2 turns s c
  | .neon => strchrWide Strings.neon turns s c
  | .words _ _ => strchrWords turns s c

/-! ## What `memchr` does -/

/-- The address lies below the last page of the address space, which holds no object. -/
def Variant.Low (V : Variant) (a : ℕ) : Prop := a + pageMin < 2 ^ V.addressBits

theorem Variant.Low.lt_max {V : Variant} {a : ℕ} (h : V.Low a) (hbits : V.addressBits = 64) :
    a < uintptrMax := by
  have hpage : pageMin = 4096 := rfl
  rw [Variant.Low, hbits] at h
  rw [uintptrMax]
  omega

section Memchr

variable {N : Narrowing} {m : Memory} {c : UInt8} {S : ℕ → Prop} {s p n finish T turns k w : ℕ}

/-- The first four vectors: a multiple of the width below four widths leaves room for one more. -/
theorem next_of_multiple (hk : ∃ j, k = w * j) (hlt : k < 4 * w) :
    k + w ≤ 4 * w ∧ ∃ j, k + w = w * j := by
  obtain ⟨j, rfl⟩ := hk
  refine ⟨?_, j + 1, (Nat.mul_succ w j).symm⟩
  rw [Nat.mul_comm 4 w] at hlt ⊢
  have hj : j < 4 := Nat.lt_of_mul_lt_mul_left hlt
  rw [← Nat.mul_succ]
  exact Nat.mul_le_mul_left w hj

/-- Where what is read lies below the last address, the cut of the end changes nothing. -/
theorem reads_searchEnd (hlow : ∀ p, Reads S s (s + n) p → p < uintptrMax) :
    Reads S s (searchEnd s n) p ↔ Reads S s (s + n) p := by
  have hend : searchEnd s n ≤ s + n ∧ (searchEnd s n = s + n ∨ searchEnd s n = uintptrMax) := by
    rw [searchEnd]
    split_ifs <;> omega
  constructor
  · rintro ⟨hb, hlt, hclear⟩
    exact ⟨hb, by omega, hclear⟩
  · rintro ⟨hb, hlt, hclear⟩
    have hmax := hlow p ⟨hb, hlt, hclear⟩
    exact ⟨hb, by omega, hclear⟩

theorem firstIn_searchEnd {v : Option ℕ} (hlow : ∀ p, Reads S s (s + n) p → p < uintptrMax)
    (h : FirstIn S s (searchEnd s n) v) : FirstIn S s (s + n) v := by
  cases v with
  | some q => exact ⟨(reads_searchEnd hlow).mp h.1, h.2⟩
  | none =>
    -- were the end cut, the last address itself would be read
    by_cases hcut : uintptrMax - s < n
    · rw [searchEnd, if_pos hcut] at h
      by_cases hs : s ≤ uintptrMax
      · exact absurd (hlow uintptrMax ⟨hs, by omega, h⟩) (Nat.lt_irrefl _)
      · exact absurd (hlow s ⟨le_rfl, by omega, clearFrom_self⟩) (by omega)
    · rw [searchEnd, if_neg hcut] at h
      exact h

theorem marks_equal (m : Memory) (c : UInt8) (p : ℕ) :
    N.Marks (N.mask (Vec.same (m.vec N.width p) (Vec.splat N.width c)))
      (fun j => StopsAt m c false (p + j)) := by
  apply N.marks_mask
  apply Vec.tells_same
  intro j
  simp [StopsAt, Vec.splat, Memory.vec]

theorem memchrWide_does (hw : 0 < N.width) (hdvd : 4 * N.width ∣ pageMin)
    (hlow : ∀ p, Reads (StopsAt m c false) s (s + n) p → p < uintptrMax)
    (hT : ∀ p, Reads (StopsAt m c false) s (s + n) p → p ≤ T) (hturns : T < s + turns) :
    Does (memchrWide N turns s c n) (PagesRead (StopsAt m c false) s (s + n)) m
      (Searched (StopsAt m c false) s (s + n) m) := by
  by_cases hn : n = 0
  · rw [memchrWide, if_pos hn, hn]
    exact does_pure ⟨rfl, clearFrom_self⟩
  -- the search is up to the cut end, which what is read does not notice
  have hreads : ∀ p, Reads (StopsAt m c false) s (searchEnd s n) p ↔
      Reads (StopsAt m c false) s (s + n) p := fun p => reads_searchEnd hlow
  have hstart : Reads (StopsAt m c false) s (searchEnd s n) s :=
    (hreads s).mpr ⟨le_rfl, by omega, clearFrom_self⟩
  have hsT := hT s ⟨le_rfl, by omega, clearFrom_self⟩
  suffices hcut : Does (memchrWide N turns s c n)
      (PagesRead (StopsAt m c false) s (searchEnd s n)) m
      (Searched (StopsAt m c false) s (searchEnd s n) m) by
    refine hcut.mono ?_ ?_
    · rintro a ⟨p, hp, hpage⟩
      exact ⟨p, (hreads p).mp hp, hpage⟩
    · rintro v m' ⟨rfl, hv⟩
      exact ⟨rfl, firstIn_searchEnd hlow hv⟩
  have hT' : ∀ p, Reads (StopsAt m c false) s (searchEnd s n) p → p ≤ T :=
    fun p hp => hT p ((hreads p).mp hp)
  rw [memchrWide, if_neg hn]
  apply does_ite
  · intro hroom
    apply does_loop (fun k m' => m' = m ∧ k ≤ 4 * N.width ∧ (∃ j, k = N.width * j) ∧ k < n ∧
        ClearFrom (StopsAt m c false) s (s + k)) (fun k => T - (s + k)) _ _
      ⟨rfl, by omega, ⟨0, rfl⟩, by omega, clearFrom_self⟩ (by omega)
    · rintro k m' next ⟨rfl, hk, hmul, hkn, hclear⟩ htest hnext
      have htest : k < 4 * N.width := of_decide_eq_true htest
      obtain ⟨hk', hmul'⟩ := next_of_multiple hmul htest
      apply does_bind
      apply does_load (pagesRead_of_room hstart hroom (by omega) (by omega))
      have hmask := marks_equal (N := N) m' c (s + k)
      apply does_ite
      · intro hne
        obtain ⟨-, hS, hbefore⟩ := hmask.first_spec hne
        exact does_pure
          ⟨rfl, firstIn_below (by omega) hS (hclear.trans (clearFrom_of_lanes hbefore))⟩
      · intro hzero
        rw [ne_eq, not_not] at hzero
        rw [hzero] at hmask
        have hclear' : ClearFrom (StopsAt m' c false) s (s + (k + N.width)) := by
          rw [← Nat.add_assoc]
          exact hclear.trans (clearFrom_of_lanes fun j hj => hmask.none_of_zero hj)
        apply does_ite
        · intro hend
          refine does_pure ⟨rfl, hclear'.mono ?_⟩
          rw [searchEnd]
          split_ifs <;> omega
        · intro hend
          have hle := hT (s + (k + N.width)) ⟨by omega, by omega, hclear'⟩
          exact hnext _ _ ⟨rfl, hk', hmul', by omega, hclear'⟩ (by omega)
    · rintro k m' ⟨rfl, hk, hmul, hkn, hclear⟩ htest
      have htest : ¬k < 4 * N.width := of_decide_eq_false htest
      obtain rfl : k = 4 * N.width := by omega
      have hread := (hreads (s + 4 * N.width)).mpr ⟨by omega, by omega, hclear⟩
      exact scan_does hw hdvd hT' (by omega) hclear hread.2.1 (by omega)
  · intro _
    exact scan_does hw hdvd hT' le_rfl clearFrom_self hstart.2.1 hturns

theorem memchrWords_does
    (hT : ∀ p, Reads (StopsAt m c false) s (s + n) p → p < T) (hturns : T < s + turns)
    (hpos : 0 < turns) :
    Does (memchrWords turns s c n) (PagesRead (StopsAt m c false) s (s + n)) m
      (Searched (StopsAt m c false) s (s + n) m) := by
  apply does_loop (fun x m' => m' = m ∧ x.1 ≤ n ∧ x.2 = s + (n - x.1) ∧
      ClearFrom (StopsAt m c false) s x.2) (fun x => T - x.2) _ _
    ⟨rfl, le_rfl, by dsimp only; omega, clearFrom_self⟩ (by dsimp only; omega)
  · rintro ⟨k, p⟩ m' next ⟨rfl, hk, hp, hclear⟩ htest hnext
    dsimp only at hk hp hclear ⊢
    have htest : k ≠ 0 := of_decide_eq_true htest
    have hread : Reads (StopsAt m' c false) s (s + n) p := ⟨by omega, by omega, hclear⟩
    have hle := hT p hread
    apply does_bind
    apply does_byte (pagesRead_byte hread)
    apply does_ite
    · intro heq
      exact does_pure ⟨rfl, hread, Or.inl heq⟩
    · intro hne
      apply hnext
      · refine ⟨rfl, by dsimp only; omega, by dsimp only; omega, hclear.trans ?_⟩
        apply clearFrom_of_lanes
        intro j hj hS
        obtain rfl : j = 0 := by omega
        rcases hS with hS | ⟨hS, -⟩
        · exact hne hS
        · cases hS
      · change T - (p + 1) < T - p
        omega
  · rintro ⟨k, p⟩ m' ⟨rfl, hk, hp, hclear⟩ htest
    dsimp only at hk hp hclear ⊢
    have htest : ¬k ≠ 0 := of_decide_eq_false htest
    exact does_pure ⟨rfl, hclear.mono (by omega)⟩

/-- `memchr` in every variant, where what is read lies below the last page of the address space. -/
theorem memchr_does (V : Variant)
    (hlow : ∀ p, Reads (StopsAt m c false) s (s + n) p → V.Low p)
    (hT : ∀ p, Reads (StopsAt m c false) s (s + n) p → p < T) (hturns : T < s + turns)
    (hpos : 0 < turns) :
    Does (V.memchr turns s c n) (PagesRead (StopsAt m c false) s (s + n)) m
      (Searched (StopsAt m c false) s (s + n) m) := by
  have hT' : ∀ p, Reads (StopsAt m c false) s (s + n) p → p ≤ T :=
    fun p hp => Nat.le_of_lt (hT p hp)
  cases V with
  | avx2 =>
    exact memchrWide_does (by decide) (by decide) (fun p hp => (hlow p hp).lt_max rfl) hT' hturns
  | sse2 =>
    exact memchrWide_does (by decide) (by decide) (fun p hp => (hlow p hp).lt_max rfl) hT' hturns
  | neon =>
    exact memchrWide_does (by decide) (by decide) (fun p hp => (hlow p hp).lt_max rfl) hT' hturns
  | words order size => exact memchrWords_does hT hturns hpos

end Memchr

/-! ## What `strchr` does -/

/-- The string from `s` on ends at its byte `i`. -/
structure EndsAt (m : Memory) (s i : ℕ) : Prop where
  zero : m (s + i) = 0
  nonzero : ∀ j < i, m (s + j) ≠ 0

section Strchr

variable {N : Narrowing} {m : Memory} {c : UInt8} {S : ℕ → Prop} {s p i finish turns : ℕ}

/-- A search that stops somewhere reads no further, wherever its end is. -/
theorem reads_of_stop {finish' : ℕ} (hS : S (s + i)) (hi : s + i < finish) :
    Reads S s finish' p → Reads S s finish p := by
  rintro ⟨hb, -, hclear⟩
  have hle := hclear.le (Nat.le_add_right s i) hS
  exact ⟨hb, by omega, hclear⟩

theorem EndsAt.stops (h : EndsAt m s i) (c : UInt8) : StopsAt m c true (s + i) :=
  Or.inr ⟨rfl, h.zero⟩

/-- The byte found is the one looked for, or the terminator that ended the search. -/
theorem holding_does {v : Option ℕ} (hend : EndsAt m s i) (hi : s + i < uintptrMax)
    (hv : FirstIn (StopsAt m c true) s uintptrMax v) :
    Does (holding c v) (PagesRead (StopsAt m c true) s (s + i + 1)) m
      (Searched (StopsAt m c false) s (s + i + 1) m) := by
  cases v with
  | none => exact absurd (hend.stops c) (hv _ (Nat.le_add_right s i) hi)
  | some q =>
    obtain ⟨hread, hS⟩ := hv
    have hread' : Reads (StopsAt m c true) s (s + i + 1) q :=
      reads_of_stop (hend.stops c) (Nat.lt_succ_self _) hread
    have hclear : ClearFrom (StopsAt m c false) s q := by
      rintro a ha ha' (h | ⟨h, -⟩)
      · exact hread.2.2 a ha ha' (Or.inl h)
      · cases h
    apply does_bind
    apply does_byte (pagesRead_byte hread')
    apply does_pure
    refine ⟨rfl, ?_⟩
    by_cases hq : m q = c
    · rw [if_pos hq]
      exact ⟨⟨hread'.1, hread'.2.1, hclear⟩, Or.inl hq⟩
    · rw [if_neg hq]
      have hzero : m q = 0 := (hS.resolve_left hq).2
      have hsq : s ≤ q := hread.1
      have hqi : s + i ≤ q := by
        by_contra hcon
        refine hend.nonzero (q - s) (by omega) ?_
        rwa [Nat.add_sub_cancel' hsq]
      have hqi' : q ≤ s + i := Nat.le_of_lt_succ hread'.2.1
      intro a ha ha' hSa
      by_cases haq : a < q
      · exact hclear a ha haq hSa
      · obtain rfl : a = q := by omega
        rcases hSa with h | ⟨h, -⟩
        · exact hq h
        · cases h

theorem marks_either (m : Memory) (c : UInt8) (p : ℕ) :
    N.Marks (N.mask (Vec.either (Vec.same (m.vec N.width p) (Vec.splat N.width c))
      (Vec.same (m.vec N.width p) (Vec.splat N.width 0)))) (fun j => StopsAt m c true (p + j)) := by
  apply N.marks_mask
  have hc : (Vec.same (m.vec N.width p) (Vec.splat N.width c)).Tells (fun j => m (p + j) = c) :=
    Vec.tells_same fun j => Iff.rfl
  have hz : (Vec.same (m.vec N.width p) (Vec.splat N.width 0)).Tells (fun j => m (p + j) = 0) :=
    Vec.tells_same fun j => Iff.rfl
  simpa [StopsAt] using hc.either hz

/-- What the loop over the first four vectors knows: nothing before its position stops the search,
or it holds the first address that does. -/
def Looked (m : Memory) (c : UInt8) (s w : ℕ) (x : ℕ × Option ℕ) (m' : Memory) : Prop :=
  m' = m ∧ x.1 ≤ 4 * w ∧ (∃ j, x.1 = w * j) ∧
    (x.2 = none → ClearFrom (StopsAt m c true) s (s + x.1)) ∧
    ∀ q, x.2 = some q → Reads (StopsAt m c true) s uintptrMax q ∧ StopsAt m c true q

theorem strchrWide_does (hw : 0 < N.width) (hdvd : 4 * N.width ∣ pageMin) (hend : EndsAt m s i)
    (hi : s + i < uintptrMax) (hturns : i + 1 < turns) :
    Does (strchrWide N turns s c) (PagesRead (StopsAt m c true) s (s + i + 1)) m
      (Searched (StopsAt m c false) s (s + i + 1) m) := by
  have hreads : ∀ p, Reads (StopsAt m c true) s uintptrMax p → p ≤ s + i :=
    fun p hp => hp.2.2.le (Nat.le_add_right s i) (hend.stops c)
  have hpages : ∀ a, PagesRead (StopsAt m c true) s uintptrMax a →
      PagesRead (StopsAt m c true) s (s + i + 1) a := by
    rintro a ⟨p, hp, hpage⟩
    exact ⟨p, reads_of_stop (hend.stops c) (Nat.lt_succ_self _) hp, hpage⟩
  have hstart : Reads (StopsAt m c true) s uintptrMax s := ⟨le_rfl, by omega, clearFrom_self⟩
  -- the aligned search, from a position that is clear, and the test of the byte it found
  have hscan : ∀ {p : ℕ}, s ≤ p → ClearFrom (StopsAt m c true) s p →
      Does (do
        let q ← scan N turns p c true uintptrMax
        holding c q) (PagesRead (StopsAt m c true) s (s + i + 1)) m
        (Searched (StopsAt m c false) s (s + i + 1) m) := by
    intro p hp hclear
    have hle := hclear.le (Nat.le_add_right s i) (hend.stops c)
    apply does_bind
    refine (scan_does hw hdvd hreads hp hclear (by omega) (by omega)).mono hpages ?_
    rintro v m' ⟨rfl, hv⟩
    exact holding_does hend hi hv
  apply does_ite
  · intro hroom
    apply does_loop (Looked m c s N.width)
      (fun x => if x.2 = none then s + i + 1 - (s + x.1) else 0)
    · rintro ⟨k, v⟩ m' next ⟨rfl, hk, hmul, hclear, -⟩ htest hnext
      dsimp only at hk hmul hclear ⊢
      obtain ⟨hlt, rfl⟩ : k < 4 * N.width ∧ v = none := of_decide_eq_true htest
      replace hclear := hclear rfl
      obtain ⟨hk', hmul'⟩ := next_of_multiple hmul hlt
      have hle := hclear.le (Nat.le_add_right s i) (hend.stops c)
      apply does_bind
      apply does_load (hpages _ (pagesRead_of_room hstart hroom (by omega) (by omega)))
      have hmask := marks_either (N := N) m' c (s + k)
      generalize N.mask (Vec.either (Vec.same (m'.vec N.width (s + k)) (Vec.splat N.width c))
        (Vec.same (m'.vec N.width (s + k)) (Vec.splat N.width 0))) = mask at hmask
      by_cases hne : mask ≠ 0#N.register
      · rw [if_pos hne]
        obtain ⟨-, hS, hbefore⟩ := hmask.first_spec hne
        have hclear' := hclear.trans (clearFrom_of_lanes hbefore)
        apply hnext
        · refine ⟨rfl, hk', hmul', fun h => (Option.some_ne_none _ h).elim, ?_⟩
          rintro q hq
          obtain rfl := Option.some.inj hq
          have hqi := hclear'.le (Nat.le_add_right s i) (hend.stops c)
          exact ⟨⟨by omega, by omega, hclear'⟩, hS⟩
        · simp only [reduceCtorEq, if_false, if_true]
          omega
      · rw [if_neg hne]
        rw [ne_eq, not_not] at hne
        rw [hne] at hmask
        have hclear' := hclear.trans (clearFrom_of_lanes fun j hj => hmask.none_of_zero hj)
        rw [Nat.add_assoc] at hclear'
        apply hnext
        · refine ⟨rfl, hk', hmul', fun _ => hclear', ?_⟩
          intro q hq
          cases hq
        · simp only [if_true]
          omega
    · rintro ⟨k, v⟩ m' ⟨rfl, hk, hmul, hclear, hv⟩ htest
      dsimp only at hk hmul hclear hv ⊢
      cases v with
      | some q =>
        obtain ⟨hread, hS⟩ := hv q rfl
        exact holding_does hend hi ⟨hread, hS⟩
      | none =>
        have htest : ¬(k < 4 * N.width ∧ (none : Option ℕ) = none) := of_decide_eq_false htest
        obtain rfl : k = 4 * N.width := by
          by_contra hcon
          exact htest ⟨by omega, rfl⟩
        exact hscan (by omega) (hclear rfl)
    · refine ⟨rfl, Nat.zero_le _, ⟨0, rfl⟩, fun _ => clearFrom_self, ?_⟩
      intro q hq
      cases hq
    · simp only [if_true]
      omega
  · intro _
    exact hscan le_rfl clearFrom_self

theorem strchrWords_does (hend : EndsAt m s i) (hturns : i < turns) :
    Does (strchrWords turns s c) (PagesRead (StopsAt m c true) s (s + i + 1)) m
      (Searched (StopsAt m c false) s (s + i + 1) m) := by
  apply does_loop (fun p m' => m' = m ∧ s ≤ p ∧ ClearFrom (StopsAt m c true) s p)
    (fun p => s + i - p) _ _ ⟨rfl, le_rfl, clearFrom_self⟩ (by omega)
  · rintro p m' next ⟨rfl, hp, hclear⟩ - hnext
    have hle := hclear.le (Nat.le_add_right s i) (hend.stops c)
    have hread : Reads (StopsAt m' c true) s (s + i + 1) p := ⟨hp, by omega, hclear⟩
    have hweak : ClearFrom (StopsAt m' c false) s p := by
      rintro a ha ha' (h | ⟨h, -⟩)
      · exact hclear a ha ha' (Or.inl h)
      · cases h
    apply does_bind
    apply does_byte (pagesRead_byte hread)
    apply does_ite
    · intro heq
      exact does_pure ⟨rfl, ⟨hp, by omega, hweak⟩, Or.inl heq⟩
    intro hne
    apply does_ite
    · intro hzero
      have hpi : s + i ≤ p := by
        by_contra hcon
        refine hend.nonzero (p - s) (by omega) ?_
        rwa [Nat.add_sub_cancel' hp]
      refine does_pure ⟨rfl, ?_⟩
      rintro a ha ha' (h | ⟨h, -⟩)
      · by_cases hap : a < p
        · exact hweak a ha hap (Or.inl h)
        · obtain rfl : a = p := by omega
          exact hne h
      · cases h
    · intro hzero
      have hclear' : ClearFrom (StopsAt m' c true) s (p + 1) := by
        refine hclear.trans (clearFrom_of_lanes ?_)
        intro j hj hS
        obtain rfl : j = 0 := by omega
        exact hS.elim hne (fun h => hzero h.2)
      have hle' := hclear'.le (Nat.le_add_right s i) (hend.stops c)
      exact hnext _ _ ⟨rfl, by omega, hclear'⟩ (by omega)
  · intro p m' _ htest
    cases htest

/-- `strchr` in every variant. -/
theorem strchr_does (V : Variant) (hend : EndsAt m s i) (hlow : V.Low (s + i))
    (hturns : i + 1 < turns) :
    Does (V.strchr turns s c) (PagesRead (StopsAt m c true) s (s + i + 1)) m
      (Searched (StopsAt m c false) s (s + i + 1) m) := by
  cases V with
  | avx2 => exact strchrWide_does (by decide) (by decide) hend (hlow.lt_max rfl) hturns
  | sse2 => exact strchrWide_does (by decide) (by decide) hend (hlow.lt_max rfl) hturns
  | neon => exact strchrWide_does (by decide) (by decide) hend (hlow.lt_max rfl) hturns
  | words order size => exact strchrWords_does hend (by omega)

end Strchr

end OpenkalMusl.Strings
