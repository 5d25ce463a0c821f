import Mathlib.Algebra.Order.Ring.Nat
import Mathlib.Data.Finset.Basic
import OpenkalMusl.Port.Basic
import OpenkalMusl.Ranges.Ordered
import OpenkalMusl.Transition.History
import OpenkalMusl.Transition.Run

/-!
# The record of anonymous mappings

`okm_region.c`: an anonymous mapping is a range of the address space that openkal reserved. The
ranges are recorded in order of their addresses, in a table that doubles when it is full; a range is
found by bisection on the ends. A range is reserved before the lock of the table is taken and
released after it is given back, by whichever context recorded or removed it, so that between the
two any number of other contexts record and remove theirs.

Addresses and lengths are machine words: sums are taken modulo `2 ^ 64` where the code takes them.

## Main definitions

* `lower`, `findRange`, `RegionTable.record`: the table
* `RegionTable.unmap`: the locked section of `okm_region_unmap`
* `Regions.step`: contexts that map and unmap, locked section by locked section
* `outstanding`, `recordedRanges`: what a history of calls has reserved and recorded

## Main results

* `find_eq_some_iff`: what the search answers on a table in order
* `Regions.Inv.step`: one locked section keeps the table in order and what it holds reserved
* `record_exact`: the table is in order and holds what was recorded, in every state of every run
-/

namespace OpenkalMusl

open Transition

/-- A sum as a machine word holds it. -/
def word (n : ℕ) : ℕ := n % 2 ^ 64

theorem word_eq {n : ℕ} (h : n < 2 ^ 64) : word n = n := Nat.mod_eq_of_lt h

/-- `struct range`: a reservation. -/
structure Range where
  base : ℕ
  size : ℕ
  deriving DecidableEq

namespace Range

/-- Where a range ends, as the code adds it up. -/
def stop (r : Range) : ℕ := word (r.base + r.size)

/-- An address of the range. -/
def Has (r : Range) (addr : ℕ) : Prop := r.base ≤ addr ∧ addr < r.base + r.size

/-- No address in common. -/
def Apart (r q : Range) : Prop := r.base + r.size ≤ q.base ∨ q.base + q.size ≤ r.base

/-- A range that is not empty and does not reach the top of the address space. -/
def Fits (r : Range) : Prop := 0 < r.size ∧ r.base + r.size < 2 ^ 64

instance (r : Range) (addr : ℕ) : Decidable (r.Has addr) := inferInstanceAs (Decidable (_ ∧ _))
instance (r q : Range) : Decidable (r.Apart q) := inferInstanceAs (Decidable (_ ∨ _))
instance (r : Range) : Decidable r.Fits := inferInstanceAs (Decidable (_ ∧ _))

theorem Fits.stop_eq {r : Range} (h : r.Fits) : r.stop = r.base + r.size := word_eq h.2

end Range

/-! ## The table -/

/-- What is reported as the page: openkal's granularity, at least 4096, and a power of two. -/
def grain (granularity : ℕ) : ℕ :=
  if granularity < 4096 then 4096
  else if granularity &&& (granularity - 1) ≠ 0 then
    -- the first power of two from 4096 on that is not smaller, 4096 where there is none
    ((List.range 52).map fun k => 4096 * 2 ^ k).find? (granularity ≤ ·) |>.getD 4096
  else granularity

/-- A length in whole granules, as a machine word: `(len + g - 1) & ~(g - 1)` for the power of two
`g`. -/
def wholeGrains (g len : ℕ) : ℕ := word (len + g - 1) - word (len + g - 1) % g

/-- `g_ranges` up to `g_count`, and `g_cap`. -/
structure RegionTable where
  ranges : List Range
  cap : ℕ

/-- The first range whose end is above `addr`. -/
def lower (ranges : List Range) (addr : ℕ) : ℕ :=
  Ranges.bisect (Ranges.endsBelow Range.stop ranges addr) ranges.length 0 ranges.length

/-- `find`: the index of the range that contains `addr`. -/
def findRange (ranges : List Range) (addr : ℕ) : Option ℕ :=
  match ranges[lower ranges addr]? with
  | some r => if r.base ≤ addr then some (lower ranges addr) else none
  | none => none

namespace RegionTable

def start : RegionTable := ⟨[], 0⟩

/-- `record`: where the table is full it grows, if `kal_alloc` answers (`grows`). -/
def record (t : RegionTable) (r : Range) (grows : Bool) : Option RegionTable :=
  if t.ranges.length = t.cap ∧ grows = false then none
  else
    let i := lower t.ranges r.base
    some {
      ranges := t.ranges.take i ++ r :: t.ranges.drop i
      cap := if t.ranges.length = t.cap then (if t.cap ≠ 0 then t.cap * 2 else 256) else t.cap }

/-- What the locked section of `okm_region_unmap` finds. -/
inductive Unmap where
  /-- No range contains the address. -/
  | notFound
  /-- `EINVAL`: the address is not a multiple of the granule. -/
  | misaligned
  /-- The whole of a range, which is removed. -/
  | whole (r : Range) (t : RegionTable)
  /-- A part of a range, whose backing is returned. -/
  | part (lo hi : ℕ)

/-- The part of `[addr, addr + len)` that lies in a range, in whole granules. -/
def partOf (g : ℕ) (r : Range) (addr len : ℕ) : ℕ × ℕ :=
  let b := word (addr + wholeGrains g len)
  (if addr < r.base then r.base else addr, if r.stop < b then r.stop else b)

/-- The locked section of `okm_region_unmap`. -/
def unmap (t : RegionTable) (g addr len : ℕ) : Unmap :=
  match findRange t.ranges addr with
  | none => .notFound
  | some i =>
    match t.ranges[i]? with
    | none => .notFound
    | some r =>
      if addr % g ≠ 0 then .misaligned
      else
        let p := partOf g r addr len
        if p.1 = r.base ∧ p.2 = r.stop then .whole r { t with ranges := t.ranges.eraseIdx i }
        else .part p.1 p.2

end RegionTable

/-! ## Contexts that map and unmap -/

/-- What is done with a range: with the reservation, and with the table. -/
inductive RegionEvent where
  | reserve (r : Range)
  | recorded (r : Range)
  | removed (r : Range)
  | release (r : Range)
  deriving DecidableEq

namespace RegionEvent

def reserves : RegionEvent → Option Range
  | .reserve r => some r
  | _ => none

def releases : RegionEvent → Option Range
  | .release r => some r
  | _ => none

def records : RegionEvent → Option Range
  | .recorded r => some r
  | _ => none

def removes : RegionEvent → Option Range
  | .removed r => some r
  | _ => none

end RegionEvent

/-- The ranges reserved and not yet released. -/
def outstanding (log : List RegionEvent) : Finset Range :=
  History.held RegionEvent.reserves RegionEvent.releases log

/-- The ranges recorded and not yet removed. -/
def recordedRanges (log : List RegionEvent) : Finset Range :=
  History.held RegionEvent.records RegionEvent.removes log

/-- Where a context is: outside, with a range reserved and not yet recorded, or with one that it is
about to release, because it could not be recorded or because it was removed. -/
inductive RegionPc where
  | idle
  | mapping (r : Range)
  | releasing (r : Range)
  deriving DecidableEq

/-- The range a context has in hand. -/
def RegionPc.inHand : RegionPc → Option Range
  | .idle => none
  | .mapping r | .releasing r => some r

structure Regions (C : Type*) where
  table : RegionTable
  pc : C → RegionPc
  log : List RegionEvent

inductive RegionLabel (C : Type*) where
  /-- `okm_region_map` up to the answer of `kal_region_reserve`. -/
  | map (c : C) (len : ℕ) (answer : Option ℕ)
  /-- The locked section of `okm_region_map`; `grows` is whether `kal_alloc` answers. -/
  | record (c : C) (grows : Bool)
  /-- `okm_region_unmap` with its locked section; `snapshot` is what `okm_from_snapshot` answers. -/
  | unmap (c : C) (addr len : ℕ) (snapshot : Bool)
  /-- `kal_region_release`, after the lock is given back. -/
  | release (c : C)

namespace Regions

variable {C : Type*}

def start : Regions C where
  table := .start
  pc := fun _ => .idle
  log := []

/-- What `kal_region_reserve` may answer with: a range below the top of the address space and apart
from every one that is reserved. -/
def MayReserve (log : List RegionEvent) (r : Range) : Prop :=
  r.base + r.size < 2 ^ 64 ∧ ∀ q ∈ outstanding log, r.Apart q

instance (log : List RegionEvent) (r : Range) : Decidable (MayReserve log r) :=
  inferInstanceAs (Decidable (_ ∧ _))

variable [DecidableEq C]

def goto (s : Regions C) (c : C) (pc : RegionPc) : Regions C :=
  { s with pc := Function.update s.pc c pc }

def say (s : Regions C) (e : RegionEvent) : Regions C := { s with log := s.log ++ [e] }

variable (g : ℕ)

/-- One part of a call of one context, from the lock to the unlock or outside it. -/
def step (s : Regions C) : RegionLabel C → Option (Regions C)
  | .map c len answer =>
    if s.pc c = .idle then
      -- EINVAL, ENOMEM
      if len = 0 ∨ 2 ^ 64 - 1 - (g - 1) < len then some s
      else
        match answer with
        | none => some s
        | some base =>
          let r : Range := ⟨base, wholeGrains g len⟩
          if MayReserve s.log r then some ((s.say (.reserve r)).goto c (.mapping r)) else none
    else none
  | .record c grows =>
    match s.pc c with
    | .mapping r =>
      match s.table.record r grows with
      | some t => some (({ s with table := t }.say (.recorded r)).goto c .idle)
      | none => some (s.goto c (.releasing r))
    | _ => none
  | .unmap c addr len snapshot =>
    if s.pc c = .idle then
      match s.table.unmap g addr len with
      | .notFound | .misaligned | .part _ _ => some s
      | .whole r t =>
        -- a snapshot's range stays reserved: the environment did not give it
        some (({ s with table := t }.say (.removed r)).goto c
          (if snapshot then .idle else .releasing r))
    else none
  | .release c =>
    match s.pc c with
    | .releasing r => some ((s.say (.release r)).goto c .idle)
    | _ => none

end Regions

/-! ## What the search answers -/

/-- The ranges as the table's order means them. -/
def InOrder (ranges : List Range) : Prop :=
  (∀ r ∈ ranges, r.Fits) ∧ Ranges.Ordered Range.base Range.stop ranges

theorem InOrder.of_sublist {ranges ranges' : List Range} (h : InOrder ranges)
    (hsub : ranges'.Sublist ranges) : InOrder ranges' :=
  ⟨fun r hr => h.1 r (hsub.subset hr), h.2.sublist hsub⟩

/-- **The search** on a table in order: the range that contains the address. -/
theorem find_eq_some_iff {ranges : List Range} (h : InOrder ranges) {addr i : ℕ} :
    findRange ranges addr = some i ↔ ∃ r, ranges[i]? = some r ∧ r.Has addr := by
  obtain ⟨hle, hbelow, habove⟩ := h.2.lower_spec addr (n := lower ranges addr) rfl
  have hstop : ∀ i (r : Range), ranges[i]? = some r → r.stop = r.base + r.size := fun i r hr =>
    (h.1 r (List.mem_of_getElem? hr)).stop_eq
  unfold findRange
  constructor
  · intro hfind
    cases hr : ranges[lower ranges addr]? with
    | none => simp [hr] at hfind
    | some r =>
      simp only [hr] at hfind
      split_ifs at hfind with hbase
      obtain rfl := Option.some.inj hfind
      have := habove _ r le_rfl hr
      rw [hstop _ r hr] at this
      exact ⟨r, hr, hbase, this⟩
  · rintro ⟨r, hr, hbase, hlt⟩
    -- the range ends above the address, and the one before it does not
    have hge : lower ranges addr ≤ i := by
      by_contra hlow
      have := hbelow i r (Nat.lt_of_not_le hlow) hr
      rw [hstop i r hr] at this
      omega
    have hi : i = lower ranges addr := by
      rcases Nat.lt_or_eq_of_le hge with hlow | heq
      · have hlen := (List.getElem?_eq_some_iff.mp hr).1
        have hq := List.getElem?_eq_getElem (Nat.lt_trans hlow hlen)
        have hapart := h.2.hi_le_lo hlow hq hr
        have := habove _ _ le_rfl hq
        omega
      · exact heq.symm
    rw [← hi, hr]
    simp [hbase]

theorem find_eq_none_iff {ranges : List Range} (h : InOrder ranges) {addr : ℕ} :
    findRange ranges addr = none ↔ ∀ r ∈ ranges, ¬ r.Has addr := by
  constructor
  · intro hnone r hr hhas
    obtain ⟨i, hi, rfl⟩ := List.getElem_of_mem hr
    have := (find_eq_some_iff h (i := i)).mpr ⟨_, List.getElem?_eq_getElem hi, hhas⟩
    rw [hnone] at this
    cases this
  · intro hall
    by_contra hne
    obtain ⟨i, hi⟩ := Option.ne_none_iff_exists'.mp hne
    obtain ⟨r, hr, hhas⟩ := (find_eq_some_iff h).mp hi
    exact hall r (List.mem_of_getElem? hr) hhas

/-! ## What one operation does to the table -/

theorem grain_pos (granularity : ℕ) : 0 < grain granularity := by
  unfold grain
  split_ifs with hsmall hpow
  · decide
  · cases hfind : ((List.range 52).map fun k => 4096 * 2 ^ k).find? (granularity ≤ ·) with
    | none => decide
    | some p =>
      have := List.find?_some hfind
      simp only [decide_eq_true_eq] at this
      simp only [Option.getD_some]
      omega
  · omega

/-- A length in whole granules is not shorter, and not empty. -/
theorem wholeGrains_pos {g len : ℕ} (hg : 0 < g) (hlen : len ≠ 0)
    (hfit : len ≤ 2 ^ 64 - 1 - (g - 1)) :
    0 < wholeGrains g len := by
  unfold wholeGrains
  rw [word_eq (by omega)]
  have := Nat.mod_lt (len + g - 1) hg
  omega

namespace RegionTable

variable {t u : RegionTable} {r : Range} {grows : Bool}

theorem record_eq_some (h : t.record r grows = some u) :
    u.ranges = t.ranges.take (lower t.ranges r.base) ++ r :: t.ranges.drop (lower t.ranges r.base) ∧
      (t.ranges.length ≤ t.cap → u.ranges.length ≤ u.cap) := by
  unfold record at h
  by_cases hfull : t.ranges.length = t.cap ∧ grows = false
  · rw [if_pos hfull] at h
    cases h
  rw [if_neg hfull] at h
  obtain rfl := Option.some.inj h
  refine ⟨rfl, fun hcap => ?_⟩
  have hlen : (t.ranges.take (lower t.ranges r.base) ++
      r :: t.ranges.drop (lower t.ranges r.base)).length = t.ranges.length + 1 := by
    simp only [List.length_append, List.length_cons, List.length_take, List.length_drop]
    omega
  simp only [hlen]
  split_ifs <;> omega

/-- **Recording** a range apart from those recorded keeps the table in order. -/
theorem record_inOrder (h : InOrder t.ranges) (hr : r.Fits) (hapart : ∀ q ∈ t.ranges, r.Apart q)
    (hu : t.record r grows = some u) :
    InOrder u.ranges ∧ ∀ q, q ∈ u.ranges ↔ q = r ∨ q ∈ t.ranges := by
  obtain ⟨hranges, -⟩ := record_eq_some hu
  have hmem : ∀ q, q ∈ u.ranges ↔ q = r ∨ q ∈ t.ranges := by
    intro q
    rw [hranges]
    exact Ranges.mem_insertAt
  refine ⟨⟨fun q hq => ?_, ?_⟩, hmem⟩
  · rcases (hmem q).mp hq with rfl | hq
    · exact hr
    · exact h.1 q hq
  · rw [hranges]
    refine h.2.insert ?_ (fun q hq => ?_) rfl
    · rw [hr.stop_eq]
      have := hr.1
      omega
    · rw [hr.stop_eq, (h.1 q hq).stop_eq]
      rcases hapart q hq with hle | hle
      · exact Or.inr hle
      · exact Or.inl hle

/-- What is removed is one range of the table, and all others stay. -/
theorem unmap_eq_whole {g addr len : ℕ} (h : InOrder t.ranges)
    (hu : t.unmap g addr len = .whole r u) :
    r ∈ t.ranges ∧ u.ranges.Sublist t.ranges ∧ u.ranges.length ≤ t.ranges.length ∧ u.cap = t.cap ∧
      ∀ q, q ∈ u.ranges ↔ q ∈ t.ranges ∧ q ≠ r := by
  unfold unmap at hu
  cases hfind : findRange t.ranges addr with
  | none => simp [hfind] at hu
  | some i =>
    cases hr : t.ranges[i]? with
    | none => simp [hfind, hr] at hu
    | some q =>
      simp only [hfind, hr] at hu
      split_ifs at hu with halign hwhole
      obtain ⟨rfl, rfl⟩ : q = r ∧ { t with ranges := t.ranges.eraseIdx i } = u := by simpa using hu
      obtain ⟨hi, rfl⟩ := List.getElem?_eq_some_iff.mp hr
      have hsub := List.eraseIdx_sublist t.ranges i
      refine ⟨List.getElem_mem hi, hsub, hsub.length_le, rfl, fun q => ?_⟩
      -- a range in order occurs once, since it is not empty
      rw [List.mem_eraseIdx_iff_getElem]
      constructor
      · rintro ⟨j, hj, hji, rfl⟩
        refine ⟨List.getElem_mem hj, fun heq => hji ?_⟩
        have hfit := h.1 _ (List.getElem_mem hj)
        have hhas : t.ranges[j].base ≤ t.ranges[j].base ∧ t.ranges[j].base < t.ranges[j].stop := by
          rw [hfit.stop_eq]
          have := hfit.1
          omega
        exact h.2.eq_of_mem (List.getElem?_eq_getElem hj) (List.getElem?_eq_getElem hi) hhas
          (heq ▸ hhas)
      · rintro ⟨hq, hne⟩
        obtain ⟨j, hj, rfl⟩ := List.getElem_of_mem hq
        refine ⟨j, hj, ?_, rfl⟩
        rintro rfl
        exact hne rfl

end RegionTable

/-! ## The invariant -/

/-- Every release of a history hands over a range that was reserved and not released since. -/
def ReleasesHeld (log : List RegionEvent) : Prop :=
  History.Always (fun pre e => ∀ r, e = .release r → r ∈ outstanding pre) log

namespace Regions

variable {C : Type*}

/-- The table is in order and holds what was recorded and not removed; what it holds and what the
contexts have in hand are reservations, each held once. -/
structure Inv (s : Regions C) : Prop where
  order : InOrder s.table.ranges
  cap : s.table.ranges.length ≤ s.table.cap
  recorded : ∀ r, r ∈ s.table.ranges ↔ r ∈ recordedRanges s.log
  fits : ∀ r ∈ outstanding s.log, r.Fits
  apart : ∀ r ∈ outstanding s.log, ∀ q ∈ outstanding s.log, r ≠ q → r.Apart q
  table : ∀ r ∈ s.table.ranges, r ∈ outstanding s.log
  hand : ∀ c r, (s.pc c).inHand = some r → r ∈ outstanding s.log ∧ r ∉ s.table.ranges
  once : ∀ c d r, (s.pc c).inHand = some r → (s.pc d).inHand = some r → c = d
  releases : ReleasesHeld s.log

theorem inv_start : (start : Regions C).Inv where
  order := ⟨nofun, Ranges.ordered_nil⟩
  cap := Nat.le_refl _
  recorded _ := by simp [start, RegionTable.start, recordedRanges, History.held]
  fits := nofun
  apart := nofun
  table := nofun
  hand := nofun
  once := nofun
  releases := History.always_nil _

variable [DecidableEq C] {s : Regions C} {c : C} {r : Range}

/-- What has to be shown of a step: of the reservations `held` and the records `recd` after it, of
the table, and of the context that moves. -/
theorem Inv.move {t : Regions C} {new : RegionPc} {held recd : Finset Range} (h : s.Inv)
    (hpc : t.pc = Function.update s.pc c new) (hheld : outstanding t.log = held)
    (hrecd : recordedRanges t.log = recd)
    (horder : InOrder t.table.ranges) (hcap : t.table.ranges.length ≤ t.table.cap)
    (hrec : ∀ r, r ∈ t.table.ranges ↔ r ∈ recd)
    (hfits : ∀ r ∈ held, r.Fits) (hapart : ∀ r ∈ held, ∀ q ∈ held, r ≠ q → r.Apart q)
    (htable : ∀ r ∈ t.table.ranges, r ∈ held)
    (hnew : ∀ r, new.inHand = some r → r ∈ held ∧ r ∉ t.table.ranges ∧
      ∀ d, d ≠ c → (s.pc d).inHand ≠ some r)
    (hothers : ∀ d r, d ≠ c → (s.pc d).inHand = some r → r ∈ held ∧ r ∉ t.table.ranges)
    (hrel : ReleasesHeld t.log) : t.Inv := by
  subst hheld hrecd
  refine ⟨horder, hcap, hrec, hfits, hapart, htable, fun d r hd => ?_, fun d e r hd he => ?_, hrel⟩
  · rw [hpc] at hd
    by_cases hdc : d = c
    · subst hdc
      rw [Function.update_self] at hd
      exact ⟨(hnew r hd).1, (hnew r hd).2.1⟩
    · rw [Function.update_of_ne hdc] at hd
      exact hothers d r hdc hd
  · rw [hpc] at hd he
    by_cases hdc : d = c
    · subst hdc
      rw [Function.update_self] at hd
      by_contra hne
      rw [Function.update_of_ne (Ne.symm hne)] at he
      exact (hnew r hd).2.2 e (Ne.symm hne) he
    · rw [Function.update_of_ne hdc] at hd
      by_cases hec : e = c
      · subst hec
        rw [Function.update_self] at he
        exact absurd hd ((hnew r he).2.2 d hdc)
      · rw [Function.update_of_ne hec] at he
        exact h.once d e r hd he

/-- A range reserved. -/
theorem Inv.reserve (h : s.Inv) (hpos : 0 < r.size) (hmay : MayReserve s.log r) :
    ((s.say (.reserve r)).goto c (.mapping r)).Inv := by
  have hnew : r ∉ outstanding s.log := by
    intro hr
    have := hmay.2 r hr
    unfold Range.Apart at this
    omega
  have hold : ∀ q ∈ outstanding s.log, q ∈ insert r (outstanding s.log) := fun q =>
    Finset.mem_insert_of_mem
  refine h.move rfl (History.held_take rfl) (History.held_other rfl rfl) h.order
    h.cap h.recorded ?_ ?_ (fun q hq => hold q (h.table q hq)) ?_ ?_
      (History.always_snoc.mpr ⟨h.releases, nofun⟩)
  · intro q hq
    rcases Finset.mem_insert.mp hq with rfl | hq'
    · exact ⟨hpos, hmay.1⟩
    · exact h.fits q hq'
  · intro q hq p hp hqp
    rcases Finset.mem_insert.mp hq with rfl | hq'
    · rcases Finset.mem_insert.mp hp with rfl | hp'
      · exact absurd rfl hqp
      · exact hmay.2 p hp'
    · rcases Finset.mem_insert.mp hp with rfl | hp'
      · exact (hmay.2 q hq').symm
      · exact h.apart q hq' p hp' hqp
  · intro q hq
    obtain rfl : r = q := Option.some.inj hq
    exact ⟨Finset.mem_insert_self r _, fun hmem => hnew (h.table r hmem),
      fun d _ hd => hnew (h.hand d r hd).1⟩
  · intro d q _ hd
    exact ⟨hold q (h.hand d q hd).1, (h.hand d q hd).2⟩

/-- A range recorded. -/
theorem Inv.record (h : s.Inv) {grows : Bool} {t : RegionTable} (hc : s.pc c = .mapping r)
    (ht : s.table.record r grows = some t) :
    (({ s with table := t }.say (.recorded r)).goto c .idle).Inv := by
  have hhand : (s.pc c).inHand = some r := by
    rw [hc]
    rfl
  obtain ⟨hrout, hrnot⟩ := h.hand c r hhand
  have hapart : ∀ q ∈ s.table.ranges, r.Apart q := by
    intro q hq
    refine h.apart r hrout q (h.table q hq) ?_
    rintro rfl
    exact hrnot hq
  obtain ⟨horder, hmem⟩ := RegionTable.record_inOrder h.order (h.fits r hrout) hapart ht
  refine h.move rfl (History.held_other rfl rfl) (History.held_take rfl) horder
    ((RegionTable.record_eq_some ht).2 h.cap) ?_ h.fits h.apart ?_
      nofun ?_ (History.always_snoc.mpr ⟨h.releases, nofun⟩)
  · intro q
    exact (hmem q).trans ((or_congr Iff.rfl (h.recorded q)).trans Finset.mem_insert.symm)
  · intro q hq
    rcases (hmem q).mp hq with rfl | hq
    · exact hrout
    · exact h.table q hq
  · intro d q hdc hd
    refine ⟨(h.hand d q hd).1, fun hq => ?_⟩
    -- the range recorded was in the hand of the context that recorded it
    rcases (hmem q).mp hq with rfl | hq
    · exact hdc (h.once d c q hd hhand)
    · exact (h.hand d q hd).2 hq

/-- A range that could not be recorded stays in hand. -/
theorem Inv.refuse (h : s.Inv) (hc : s.pc c = .mapping r) : (s.goto c (.releasing r)).Inv := by
  have hhand : (s.pc c).inHand = some r := by
    rw [hc]
    rfl
  refine h.move rfl rfl rfl h.order h.cap h.recorded h.fits h.apart h.table ?_
    (fun d q _ hd => h.hand d q hd) h.releases
  intro q hq
  obtain rfl : r = q := Option.some.inj hq
  exact ⟨(h.hand c r hhand).1, (h.hand c r hhand).2, fun d hdc hd => hdc (h.once d c r hd hhand)⟩

/-- A range removed, to be released unless it is a snapshot's. -/
theorem Inv.remove (h : s.Inv) {g addr len : ℕ} {t : RegionTable} {new : RegionPc}
    (ht : s.table.unmap g addr len = .whole r t) (hnew : new = .idle ∨ new = .releasing r) :
    (({ s with table := t }.say (.removed r)).goto c new).Inv := by
  obtain ⟨hr, hsub, hlen, hcap, hmem⟩ := RegionTable.unmap_eq_whole h.order ht
  have hin : ∀ q, new.inHand = some q → q = r := by
    intro q hq
    rcases hnew with rfl | rfl
    · cases hq
    · exact (Option.some.inj hq).symm
  refine h.move rfl (History.held_other rfl rfl) (History.held_give rfl rfl)
    (h.order.of_sublist hsub) (hlen.trans (h.cap.trans hcap.ge)) ?_ h.fits h.apart
    (fun q hq => h.table q (hsub.subset hq)) ?_ ?_ (History.always_snoc.mpr ⟨h.releases, nofun⟩)
  · intro q
    exact (hmem q).trans (and_comm.trans
      ((and_congr Iff.rfl (h.recorded q)).trans Finset.mem_erase.symm))
  · intro q hq
    obtain rfl := hin q hq
    exact ⟨h.table q hr, fun hmem' => ((hmem q).mp hmem').2 rfl,
      fun d _ hd => (h.hand d q hd).2 hr⟩
  · intro d q _ hd
    exact ⟨(h.hand d q hd).1, fun hq => (h.hand d q hd).2 (hsub.subset hq)⟩

/-- A range released. -/
theorem Inv.release (h : s.Inv) (hc : s.pc c = .releasing r) :
    ((s.say (.release r)).goto c .idle).Inv := by
  have hhand : (s.pc c).inHand = some r := by
    rw [hc]
    rfl
  obtain ⟨hrout, hrnot⟩ := h.hand c r hhand
  refine h.move rfl (History.held_give rfl rfl) (History.held_other rfl rfl) h.order
    h.cap h.recorded (fun q hq => h.fits q (Finset.mem_of_mem_erase hq))
    (fun q hq p hp => h.apart q (Finset.mem_of_mem_erase hq) p
      (Finset.mem_of_mem_erase hp)) ?_ nofun
    ?_ (History.always_snoc.mpr ⟨h.releases, fun q hq => ?_⟩)
  · intro q hq
    refine Finset.mem_erase_of_ne_of_mem ?_ (h.table q hq)
    rintro rfl
    exact hrnot hq
  · intro d q hdc hd
    refine ⟨Finset.mem_erase_of_ne_of_mem ?_ (h.hand d q hd).1, (h.hand d q hd).2⟩
    rintro rfl
    exact hdc (h.once d c q hd hhand)
  · obtain rfl : r = q := by simpa using hq
    exact hrout

/-- **What one locked section keeps**, and one reservation or release outside it. -/
theorem Inv.step {granularity : ℕ} {t : Regions C} {l : RegionLabel C} (h : s.Inv)
    (hs : s.step (grain granularity) l = some t) : t.Inv := by
  cases l with
  | map c len answer =>
    simp only [Regions.step] at hs
    split_ifs at hs with hidle hlen
    · exact Option.some.inj hs ▸ h
    · cases answer with
      | none => exact Option.some.inj hs ▸ h
      | some base =>
        simp only at hs
        split_ifs at hs with hmay
        rw [← Option.some.inj hs]
        rw [not_or, not_lt] at hlen
        exact h.reserve (wholeGrains_pos (grain_pos granularity) hlen.1 hlen.2) hmay
  | record c grows =>
    simp only [Regions.step] at hs
    cases hc : s.pc c with
    | idle => simp [hc] at hs
    | releasing r => simp [hc] at hs
    | mapping r =>
      simp only [hc] at hs
      cases ht : s.table.record r grows with
      | none =>
        simp only [ht, Option.some.injEq] at hs
        rw [← hs]
        exact h.refuse hc
      | some t =>
        simp only [ht, Option.some.injEq] at hs
        rw [← hs]
        exact h.record hc ht
  | unmap c addr len snapshot =>
    simp only [Regions.step] at hs
    by_cases hidle : s.pc c = .idle
    case neg =>
      rw [if_neg hidle] at hs
      cases hs
    rw [if_pos hidle] at hs
    cases ht : s.table.unmap (grain granularity) addr len with
    | notFound =>
      simp only [ht, Option.some.injEq] at hs
      exact hs ▸ h
    | misaligned =>
      simp only [ht, Option.some.injEq] at hs
      exact hs ▸ h
    | part lo hi =>
      simp only [ht, Option.some.injEq] at hs
      exact hs ▸ h
    | whole r t =>
      simp only [ht, Option.some.injEq] at hs
      rw [← hs]
      refine h.remove ht ?_
      cases snapshot
      · exact Or.inr rfl
      · exact Or.inl rfl
  | release c =>
    simp only [Regions.step] at hs
    cases hc : s.pc c with
    | idle => simp [hc] at hs
    | mapping r => simp [hc] at hs
    | releasing r =>
      simp only [hc, Option.some.injEq] at hs
      rw [← hs]
      exact h.release hc

end Regions

/-- **The record of anonymous mappings is exact**, in every state of every run of any number of
contexts: it is strictly in order of addresses and its ranges are apart, it fits the table, it holds
what was recorded and not removed, the search answers with the one range that contains an address,
and a range is released only while it is reserved, with the base and size it was reserved with. -/
theorem record_exact {C : Type*} [DecidableEq C] {granularity : ℕ} {s : Regions C}
    (h : Reachable (Regions.step (grain granularity)) Regions.start s) :
    s.table.ranges.Pairwise (fun r q => r.base < q.base) ∧
      s.table.ranges.Pairwise Range.Apart ∧
      s.table.ranges.length ≤ s.table.cap ∧
      (∀ r, r ∈ s.table.ranges ↔ r ∈ recordedRanges s.log) ∧
      (∀ addr i, findRange s.table.ranges addr = some i ↔
        ∃ r, s.table.ranges[i]? = some r ∧ r.Has addr) ∧
      (∀ (addr i j : ℕ) (r q : Range), s.table.ranges[i]? = some r → s.table.ranges[j]? = some q →
        r.Has addr → q.Has addr → i = j) ∧
      (∀ addr, findRange s.table.ranges addr = none ↔ ∀ r ∈ s.table.ranges, ¬ r.Has addr) ∧
      ReleasesHeld s.log := by
  have hinv : s.Inv := h.invariant Regions.inv_start fun _ _ _ hu hv => hu.step hv
  have hstop : ∀ r ∈ s.table.ranges, r.stop = r.base + r.size := fun r hr =>
    (hinv.order.1 r hr).stop_eq
  refine ⟨hinv.order.2.lo_lt, ?_, hinv.cap, hinv.recorded, fun _ _ =>
    find_eq_some_iff hinv.order, ?_,
    fun _ => find_eq_none_iff hinv.order, hinv.releases⟩
  · refine hinv.order.2.apart.imp_of_mem fun {r q} hr _ hrq => Or.inl ?_
    rwa [← hstop r hr]
  · intro addr i j r q hi hj hr hq
    have hr' : r.base ≤ addr ∧ addr < r.stop := by
      rw [hstop r (List.mem_of_getElem? hi)]
      exact hr
    have hq' : q.base ≤ addr ∧ addr < q.stop := by
      rw [hstop q (List.mem_of_getElem? hj)]
      exact hq
    exact hinv.order.2.eq_of_mem hi hj hr' hq'

/-- Two contexts whose reservations and locked sections interleave; one range is released. -/
theorem record_exact_two :
    ∃ s : Regions Bool,
      run (Regions.step (grain 4096)) Regions.start
        [.map true 5000 (some 65536), .map false 4096 (some 8192), .record false true,
          .record true true, .map false 1 (some 4096), .record false true,
          .unmap true 8192 4096 false, .release true] = some s ∧
      s.table.ranges = [⟨4096, 4096⟩, ⟨65536, 8192⟩] ∧ ReleasesHeld s.log := by
  obtain ⟨s, hs⟩ : ∃ s : Regions Bool, run (Regions.step (grain 4096)) Regions.start
      [.map true 5000 (some 65536), .map false 4096 (some 8192), .record false true,
        .record true true, .map false 1 (some 4096), .record false true,
        .unmap true 8192 4096 false, .release true] = some s :=
    Option.isSome_iff_exists.mp (by decide +kernel)
  exact ⟨s, hs, observe hs (fun s => s.table.ranges) (by decide +kernel),
    (record_exact ⟨_, hs⟩).2.2.2.2.2.2.2⟩

end OpenkalMusl
