import OpenkalMusl.Memory.Mappings

/-!
# What an unmapping leaves backed

`munmap` of anonymous memory: a range is released when the whole of it is named, and otherwise the
part named is decommitted. The interval is cut to the one range that contains its first address,
and the sum that ends it is taken as a machine word. What lies in another range of the interval
stays, and an end that wraps around names nothing; the call reports success in either case.

What is backed is read off the history of what the environment was asked. The environment may
decline to release or to decommit; the call does not look at its answer.

## Main definitions

* `Backed declines log x`: the address is backed after what was asked
* `Memory.Unmaps`: what a successful `munmap` promises of its interval

## Main results

* `Memory.munmap_backed_iff`: what is backed after a call, in terms of what was backed before
* `Memory.munmap_unmaps_iff`: when a call that reports success has unmapped its interval
-/

namespace OpenkalMusl

open Transition

/-! ## What is backed -/

/-- One more event: a reservation is backed at once, and a release or a decommitment that the
environment does not decline ends the backing of what it names. -/
def MemEvent.backs (declined : Bool) (before : Bool) (x : ℕ) : MemEvent → Bool
  | .take .region r => before || decide (r.Has x)
  | .give .region r => before && !(!declined && decide (r.Has x))
  | .decommit lo hi => before && !(!declined && (decide (lo ≤ x) && decide (x < hi)))
  | _ => before

/-- Whether an address is backed after the first `n` events; `declines i` is whether the
environment declined the event at position `i`. -/
def backedAfter (declines : ℕ → Bool) (log : List MemEvent) (x : ℕ) : ℕ → Bool
  | 0 => false
  | n + 1 =>
    match log[n]? with
    | some e => e.backs (declines n) (backedAfter declines log x n) x
    | none => backedAfter declines log x n

/-- The address is backed after what was asked. -/
def Backed (declines : ℕ → Bool) (log : List MemEvent) (x : ℕ) : Prop :=
  backedAfter declines log x log.length = true

instance (declines : ℕ → Bool) (log : List MemEvent) (x : ℕ) : Decidable (Backed declines log x) :=
  inferInstanceAs (Decidable (_ = true))

theorem backedAfter_append (declines : ℕ → Bool) (log log' : List MemEvent) (x n : ℕ)
    (hn : n ≤ log.length) :
    backedAfter declines (log ++ log') x n = backedAfter declines log x n := by
  induction n with
  | zero => rfl
  | succ n ih =>
    unfold backedAfter
    rw [List.getElem?_append_left (by omega), ih (by omega)]

theorem backed_concat {declines : ℕ → Bool} {log : List MemEvent} {e : MemEvent} {x : ℕ} :
    Backed declines (log ++ [e]) x ↔
      e.backs (declines log.length) (backedAfter declines log x log.length) x = true := by
  unfold Backed
  rw [List.length_append, List.length_singleton, backedAfter,
    List.getElem?_append_right le_rfl, Nat.sub_self, backedAfter_append _ _ _ _ _ le_rfl]
  rfl

theorem backed_give {declines : ℕ → Bool} {log : List MemEvent} {r : Range} {x : ℕ} :
    Backed declines (log ++ [.give .region r]) x ↔
      Backed declines log x ∧ (r.Has x → declines log.length = true) := by
  rw [backed_concat]
  simp [MemEvent.backs, Backed, or_comm, imp_iff_not_or]

theorem backed_decommit {declines : ℕ → Bool} {log : List MemEvent} {lo hi x : ℕ} :
    Backed declines (log ++ [.decommit lo hi]) x ↔
      Backed declines log x ∧ (lo ≤ x → x < hi → declines log.length = true) := by
  rw [backed_concat]
  simp only [MemEvent.backs, Backed]
  cases declines log.length with
  | true => simp
  | false =>
    simp only [Bool.not_false, Bool.true_and, Bool.and_eq_true, Bool.not_eq_true',
      Bool.and_eq_false_iff, decide_eq_false_iff_not, Bool.false_eq_true]
    exact and_congr_right fun _ => by tauto

/-! ## The interval of a call -/

/-- A length up to a whole number of granules, not as a machine word. -/
def rounded (g len : ℕ) : ℕ := len + g - 1 - (len + g - 1) % g

/-- Neither the rounding nor the end of the interval exceeds a machine word. -/
def NoOverflow (g addr len : ℕ) : Prop := len + g - 1 < 2 ^ 64 ∧ addr + rounded g len < 2 ^ 64

instance (g addr len : ℕ) : Decidable (NoOverflow g addr len) :=
  inferInstanceAs (Decidable (_ ∧ _))

theorem NoOverflow.wholeGrains_eq {g addr len : ℕ} (h : NoOverflow g addr len) :
    wholeGrains g len = rounded g len := by
  unfold wholeGrains rounded
  rw [word_eq h.1]

namespace Memory

/-- What `munmap` that reports success promises: its interval did not overflow, and every address
of it that lay in a recorded range is not backed any more. -/
def Unmaps (env : MemEnv) (declines : ℕ → Bool) (m n : Memory) (addr len : ℕ) : Prop :=
  NoOverflow env.grain addr len ∧
    ∀ x, addr ≤ x → x < addr + rounded env.grain len → (∃ q ∈ m.table.ranges, q.Has x) →
      ¬ Backed declines n.log x

variable {env : MemEnv} {m n : Memory} {addr len : ℕ}

/-- What a call through `okm_region_unmap` has found: the range that contains its address, which
it releases or of which it decommits a part, unless that is the snapshot's. -/
theorem okmRegionUnmap_eq_ok (h : Inv env m)
    (hn : m.okmRegionUnmap env addr len = some (n, .ok 0)) :
    ∃ r ∈ m.table.ranges, r.Has addr ∧
      ((r.base = addr ∧ (RegionTable.partOf env.grain r addr len).2 = r.base + r.size ∧
          n.log = if env.okmFromSnapshot addr then m.log else m.log ++ [.give .region r]) ∨
        n.log = if addr < (RegionTable.partOf env.grain r addr len).2 ∧
            env.okmFromSnapshot addr = false then
          m.log ++ [.decommit addr (RegionTable.partOf env.grain r addr len).2] else m.log) := by
  unfold okmRegionUnmap at hn
  split_ifs at hn with hregions
  unfold RegionTable.unmap at hn
  cases hfind : findRange m.table.ranges addr with
  | none => simp [hfind] at hn
  | some i =>
    obtain ⟨r, hr, hhas⟩ := (find_eq_some_iff h.order).mp hfind
    have hmem := List.mem_of_getElem? hr
    have hlo : (RegionTable.partOf env.grain r addr len).1 = addr := by
      simp only [RegionTable.partOf]
      exact if_neg (Nat.not_lt.mpr hhas.1)
    refine ⟨r, hmem, hhas, ?_⟩
    simp only [hfind, hr, hlo, (h.order.1 r hmem).stop_eq] at hn
    by_cases halign : addr % env.grain ≠ 0
    · rw [if_pos halign] at hn
      cases hn
    rw [if_neg halign] at hn
    by_cases hwhole : addr = r.base ∧ (RegionTable.partOf env.grain r addr len).2 = r.base + r.size
    · -- the whole of the range
      rw [if_pos hwhole] at hn
      refine Or.inl ⟨hwhole.1.symm, hwhole.2, ?_⟩
      rw [hwhole.1]
      cases hsnap : env.okmFromSnapshot r.base with
      | true =>
        simp only [hsnap, if_true] at hn
        cases hn
        rfl
      | false =>
        simp only [hsnap] at hn
        cases hn
        rfl
    · -- a part of it
      rw [if_neg hwhole] at hn
      right
      simp only at hn
      split_ifs at hn ⊢ with hpart
      · cases hn
        rfl
      · cases hn
        rfl

/-- An address lies in one recorded range at most. -/
theorem Inv.eq_of_has (h : Inv env m) {q r : Range} (hq : q ∈ m.table.ranges)
    (hr : r ∈ m.table.ranges) {x : ℕ} (hqx : q.Has x) (hrx : r.Has x) : q = r := by
  have hqfits := h.order.1 q hq
  have hrfits := h.order.1 r hr
  obtain ⟨i, hi, rfl⟩ := List.getElem_of_mem hq
  obtain ⟨j, hj, rfl⟩ := List.getElem_of_mem hr
  have hij := h.order.2.eq_of_mem (List.getElem?_eq_getElem hi) (List.getElem?_eq_getElem hj)
    (by rw [hqfits.stop_eq]; exact hqx) (by rw [hrfits.stop_eq]; exact hrx)
  simp [hij]

/-- Where the interval does not overflow, the part of the range is its part of the interval. -/
theorem partOf_snd {r : Range} (hr : r.Fits) (hno : NoOverflow env.grain addr len) :
    (RegionTable.partOf env.grain r addr len).2 =
      min (r.base + r.size) (addr + rounded env.grain len) := by
  simp only [RegionTable.partOf, hno.wholeGrains_eq, word_eq hno.2, hr.stop_eq]
  split_ifs <;> omega

/-- **What is backed after a call** that reports success and whose interval does not overflow: what
was backed before, except what lies in the range that contains the address, unless that is the
snapshot's or the environment declined. -/
theorem munmap_backed_iff (h : Inv env m) (hno : NoOverflow env.grain addr len)
    (hn : m.okmRegionUnmap env addr len = some (n, .ok 0)) (declines : ℕ → Bool) {x : ℕ}
    (hlo : addr ≤ x) (hhi : x < addr + rounded env.grain len) :
    Backed declines n.log x ↔ Backed declines m.log x ∧
      ∀ r ∈ m.table.ranges, r.Has addr → r.Has x →
        env.okmFromSnapshot addr = true ∨ declines m.log.length = true := by
  obtain ⟨r, hr, hhas, hlog⟩ := okmRegionUnmap_eq_ok h hn
  have hfits := h.order.1 r hr
  rw [partOf_snd hfits hno] at hlog
  have hcond : (∀ q ∈ m.table.ranges, q.Has addr → q.Has x →
      env.okmFromSnapshot addr = true ∨ declines m.log.length = true) ↔
      (r.Has x → env.okmFromSnapshot addr = true ∨ declines m.log.length = true) := by
    constructor
    · exact fun hall => hall r hr hhas
    · intro hone q hq hqa
      rw [h.eq_of_has hq hr hqa hhas]
      exact hone
  rw [hcond]
  cases hsnap : env.okmFromSnapshot addr with
  | true =>
    -- the snapshot's memory stays
    have hsame : n.log = m.log := by
      rcases hlog with ⟨-, -, hlog⟩ | hlog <;> simpa [hsnap] using hlog
    simp [hsame]
  | false =>
    simp only [Bool.false_eq_true, false_or]
    rcases hlog with ⟨hbase, hwhole, hlog⟩ | hlog
    · rw [hlog, hsnap, if_neg (by simp), backed_give]
    · have hlt : addr < min (r.base + r.size) (addr + rounded env.grain len) :=
        lt_min hhas.2 (by omega)
      rw [hlog, if_pos ⟨hlt, hsnap⟩, backed_decommit]
      refine and_congr_right fun _ => ?_
      have hiff : r.Has x ↔ x < min (r.base + r.size) (addr + rounded env.grain len) := by
        have := hhas.1
        unfold Range.Has
        omega
      rw [hiff]
      exact ⟨fun g => g hlo, fun g _ => g⟩

/-- **When a call that reports success has unmapped its interval**: neither its rounded length nor
its end exceeds a word, and whatever of it is recorded and backed lies in the range that contains
its first address, is not the snapshot's, and the environment does not decline. -/
theorem munmap_unmaps_iff {declines : ℕ → Bool}
    (hm : Reachable (Memory.step env) Memory.start m) (hfile : m.okmMapUnmap addr = none)
    (hn : m.okmRegionUnmap env addr len = some (n, .ok 0)) :
    m.munmap env addr len = (n, .ok 0) ∧
    (Unmaps env declines m n addr len ↔
      NoOverflow env.grain addr len ∧
        ∀ x, addr ≤ x → x < addr + rounded env.grain len → ∀ q ∈ m.table.ranges, q.Has x →
          Backed declines m.log x →
          q.Has addr ∧ env.okmFromSnapshot addr = false ∧ declines m.log.length = false) := by
  have h := inv_of_reachable hm
  refine ⟨by simp only [munmap, hfile, hn], and_congr_right fun hno => ?_⟩
  refine forall_congr' fun x => imp_congr_right fun hlo => imp_congr_right fun hhi => ?_
  rw [munmap_backed_iff h hno hn declines hlo hhi]
  constructor
  · intro hunmaps q hq hqx hb
    have hnot := hunmaps ⟨q, hq, hqx⟩
    simp only [hb, true_and, not_forall, not_or, Bool.not_eq_true] at hnot
    obtain ⟨r, hr, hra, hrx, hsnap, hdec⟩ := hnot
    rw [h.eq_of_has hq hr hqx hrx]
    exact ⟨hra, hsnap, hdec⟩
  · rintro hcond ⟨q, hq, hqx⟩ ⟨hb, hall⟩
    obtain ⟨hqa, hsnap, hdec⟩ := hcond q hq hqx hb
    have := hall q hq hqa hqx
    simp [hsnap, hdec] at this

end Memory

/-- Two neighbouring blocks of two pages, each mapped by a call of its own. -/
def neighbours : List MemLabel :=
  [.mmap (anonymous 8192 twoPages_lt) ⟨.badFd, .ok 0, some 65536, none, true⟩,
    .mmap (anonymous 8192 twoPages_lt) ⟨.badFd, .ok 0, some 73728, none, true⟩]

/-- The state after both. -/
def neighbouring : Memory where
  files := []
  fileCap := 0
  table := ⟨[⟨65536, 8192⟩, ⟨73728, 8192⟩], 256⟩
  log := [.take .region ⟨65536, 8192⟩, .take .region ⟨73728, 8192⟩]

theorem run_neighbours :
    run (Memory.step ⟨true, true, 4096, none⟩) Memory.start neighbours = some neighbouring := by
  have hsome : (run (Memory.step ⟨true, true, 4096, none⟩) Memory.start neighbours).isSome := by
    decide +kernel
  obtain ⟨m, hm⟩ := Option.isSome_iff_exists.mp hsome
  have hfiles : m.files = [] := observe hm Memory.files (by decide +kernel)
  have hcap : m.fileCap = 0 := observe hm Memory.fileCap (by decide +kernel)
  have hranges : m.table.ranges = [⟨65536, 8192⟩, ⟨73728, 8192⟩] :=
    observe hm (fun m => m.table.ranges) (by decide +kernel)
  have htcap : m.table.cap = 256 := observe hm (fun m => m.table.cap) (by decide +kernel)
  have hlog : m.log = [.take .region ⟨65536, 8192⟩, .take .region ⟨73728, 8192⟩] :=
    observe hm Memory.log (by decide +kernel)
  obtain ⟨files, fileCap, ⟨ranges, cap⟩, log⟩ := m
  simp only at hfiles hcap hranges htcap hlog
  rw [hm, hfiles, hcap, hranges, htcap, hlog]
  rfl

/-- The first page of the first block. -/
theorem munmap_unmaps_iff_part :
    ∃ n, neighbouring.munmap ⟨true, true, 4096, none⟩ 65536 4096 = (n, .ok 0) ∧
      Memory.Unmaps ⟨true, true, 4096, none⟩ (fun _ => false) neighbouring n 65536 4096 := by
  obtain ⟨hmunmap, hiff⟩ := @Memory.munmap_unmaps_iff ⟨true, true, 4096, none⟩ neighbouring
    (neighbouring.say (.decommit 65536 69632)) 65536 4096 (fun _ => false) ⟨_, run_neighbours⟩ rfl
    rfl
  refine ⟨_, hmunmap, hiff.mpr ⟨by decide, fun x hlo hhi q hq hqx _ => ⟨?_, rfl, rfl⟩⟩⟩
  have hx : x < 69632 := hhi
  have hq' : q = ⟨65536, 8192⟩ ∨ q = ⟨73728, 8192⟩ := by simpa [neighbouring] using hq
  rcases hq' with rfl | rfl
  · decide
  · have : 73728 ≤ x := hqx.1
    omega

/-- One call over both blocks releases the first and reports success, and a length whose rounding
wraps around reports success and does nothing. -/
theorem munmap_leaves_second :
    (∃ n, neighbouring.munmap ⟨true, true, 4096, none⟩ 65536 16384 = (n, .ok 0) ∧
      n.log = neighbouring.log ++ [.give .region ⟨65536, 8192⟩] ∧
      ¬ Memory.Unmaps ⟨true, true, 4096, none⟩ (fun _ => false) neighbouring n 65536 16384) ∧
    neighbouring.munmap ⟨true, true, 4096, none⟩ 65536 (2 ^ 64 - 1) = (neighbouring, .ok 0) ∧
    ¬ Memory.Unmaps ⟨true, true, 4096, none⟩ (fun _ => false) neighbouring neighbouring 65536
      (2 ^ 64 - 1) := by
  refine ⟨⟨_, rfl, rfl, fun h => ?_⟩, rfl, fun h => absurd h.1.1 (by decide)⟩
  refine h.2 73728 (by decide) (by decide) ⟨⟨73728, 8192⟩, by simp [neighbouring], by decide⟩ ?_
  decide +kernel

end OpenkalMusl
