import Mathlib.Data.Fintype.Pi
import OpenkalMusl.Transition.Run

/-!
# The lock of the tables

`okm_mutex_lock` and `okm_mutex_unlock` on one word, as any number of contexts interleave their
atomic steps. The word is free, held, or held and waited for. A context that finds it held looks a
few times, exchanges it for the waited-for value and sleeps; whoever wakes exchanges it for that
value again, so that the next unlock wakes the next sleeper.

`kal_task_wait` sleeps only while the word is the waited-for value and may return without a wake, or
answer that the implementation has no second context; a wake releases one sleeper where there is
one, and the environment chooses which.

## Main definitions

* `LockPc`, `LockPc.next`: where a context is in the two functions, and its next atomic step
* `TableLock.step`: the contexts on one word
* `TableLock.Stranded`: the word is free, a context sleeps on it, and nobody is on the way

## Main results

* `step_cases`: what a step is
* `lock_excludes_and_wakes`: at most one context is between lock and unlock, and none is stranded
-/

namespace OpenkalMusl

open Transition

/-- The word of a lock that is held. -/
def lockHeld : BitVec 32 := 1

/-- The word of a lock that is held and waited for. -/
def lockWaited : BitVec 32 := 2

/-- Where a context is. -/
inductive LockPc where
  | idle
  /-- `okm_mutex_lock`: the first compare-and-exchange, and the looks before sleeping, each a load
  and a compare-and-exchange where the load finds the word free. -/
  | tryFirst
  | look (left : ℕ)
  | tryLook (left : ℕ)
  /-- The exchange, the first time or again. -/
  | exchange (again : Bool)
  | wait
  | asleep
  /-- The implementation has no second context. -/
  | yield
  /-- Between the two functions. -/
  | inside
  /-- `okm_mutex_unlock`: its exchange, and its wake. -/
  | unlock
  | wake
  deriving DecidableEq

namespace LockPc

/-- The next atomic step of a context that neither sleeps nor wakes: the word and where it goes. -/
def next (word : BitVec 32) : LockPc → Option (BitVec 32 × LockPc)
  | .tryFirst => some (if word = 0 then (lockHeld, .inside) else (word, .look 64))
  | .look 0 => some (word, .exchange false)
  | .look (n + 1) => some (word, if word = 0 then .tryLook n else .look n)
  | .tryLook n => some (if word = 0 then (lockHeld, .inside) else (word, .look n))
  | .exchange _ => some (lockWaited, if word = 0 then .inside else .wait)
  | .wait => some (word, if word = lockWaited then .asleep else .exchange true)
  | .yield => some (word, .exchange true)
  | .unlock => some (0, if word = lockWaited then .wake else .idle)
  | .idle | .asleep | .inside | .wake => none

/-- Between lock and unlock. -/
def holds : LockPc → Bool
  | .inside | .unlock => true
  | _ => false

end LockPc

/-- The word, and the contexts upon it. -/
structure TableLock (C : Type*) where
  word : BitVec 32
  pc : C → LockPc

inductive LockLabel (C : Type*) where
  | lock (c : C)
  | unlock (c : C)
  | step (c : C)
  /-- A wait returns without a wake. -/
  | returned (c : C)
  /-- A wait answers that it is not supported. -/
  | unsupported (c : C)
  /-- The wake of `c` releases `x`, or finds nobody asleep. -/
  | wake (c : C) (x : Option C)

namespace TableLock

variable {C : Type*}

/-- A lock nobody has used. -/
def start : TableLock C where
  word := 0
  pc := fun _ => .idle

/-- The word is free, a context sleeps on it, and nobody is on the way: no context is between its
unlocking exchange and its wake, and none is awake that has still to retry its exchange. -/
def Stranded (s : TableLock C) : Prop :=
  s.word = 0 ∧ (∃ x, s.pc x = .asleep) ∧ ¬ ∃ y, s.pc y = .wake ∨ s.pc y = .exchange true

variable [DecidableEq C]

def write (s : TableLock C) (c : C) (w : BitVec 32 × LockPc) : TableLock C where
  word := w.1
  pc := Function.update s.pc c w.2

def goto (s : TableLock C) (c : C) (pc : LockPc) : TableLock C := s.write c (s.word, pc)

variable [Fintype C]

/-- One step of one context. -/
def step (s : TableLock C) : LockLabel C → Option (TableLock C)
  | .lock c => if s.pc c = .idle then some (s.goto c .tryFirst) else none
  | .unlock c => if s.pc c = .inside then some (s.goto c .unlock) else none
  | .step c => ((s.pc c).next s.word).map (s.write c)
  | .returned c => if s.pc c = .asleep then some (s.goto c (.exchange true)) else none
  | .unsupported c => if s.pc c = .wait then some (s.goto c .yield) else none
  | .wake c none =>
    if s.pc c = .wake ∧ ∀ x, s.pc x ≠ .asleep then some (s.goto c .idle) else none
  | .wake c (some x) =>
    if s.pc c = .wake ∧ s.pc x = .asleep then some ((s.goto x (.exchange true)).goto c .idle)
    else none

end TableLock

/-! ## What one step can do -/

theorem lockWaited_ne_zero : lockWaited ≠ 0 := by decide

theorem lockHeld_ne_zero : lockHeld ≠ 0 := by decide

/-- What a step of a context at `pc` writes: it takes a free word, gives one back, or leaves it free
or held; and it wakes where the word it gives back was waited for. -/
structure LockMove (word : BitVec 32) (pc : LockPc) (w : BitVec 32 × LockPc) : Prop where
  hold : (w.2.holds = true ∧ word = 0 ∧ w.1 ≠ 0) ∨
    (pc.holds = true ∧ w.2.holds = false ∧ w.1 = 0 ∧ (word = lockWaited → w.2 = .wake)) ∨
    (w.2.holds = pc.holds ∧ (w.1 = word ∨ word ≠ 0 ∧ w.1 = lockWaited))
  asleep : w.2 = .asleep → w.1 = lockWaited
  again : pc = .exchange true → w.1 = lockWaited

section LockMove

variable {word : BitVec 32} {pc : LockPc}

/-- A context that only moves. -/
theorem lockMove_goto {pc' : LockPc} (hholds : pc'.holds = pc.holds)
    (hasleep : pc' = .asleep → word = lockWaited) (hagain : pc ≠ .exchange true) :
    LockMove word pc (word, pc') where
  hold := Or.inr (Or.inr ⟨hholds, Or.inl rfl⟩)
  asleep := hasleep
  again := fun h => absurd h hagain

/-- A compare-and-exchange of a free word. -/
theorem lockMove_try {busy : LockPc} (hpc : pc.holds = false) (hbusy : busy.holds = false)
    (hasleep : busy ≠ .asleep) (hagain : pc ≠ .exchange true) :
    LockMove word pc (if word = 0 then (lockHeld, .inside) else (word, busy)) := by
  split_ifs with hfree
  · exact ⟨Or.inl ⟨rfl, hfree, lockHeld_ne_zero⟩, nofun, fun h => absurd h hagain⟩
  · exact lockMove_goto (hbusy.trans hpc.symm) (fun h => absurd h hasleep) hagain

theorem lockMove_next {w : BitVec 32 × LockPc} (h : pc.next word = some w) :
    LockMove word pc w := by
  cases pc with
  | idle => cases h
  | asleep => cases h
  | inside => cases h
  | wake => cases h
  | tryFirst =>
    obtain rfl := Option.some.inj h
    exact lockMove_try rfl rfl nofun nofun
  | tryLook n =>
    obtain rfl := Option.some.inj h
    exact lockMove_try rfl rfl nofun nofun
  | look n =>
    cases n with
    | zero =>
      obtain rfl := Option.some.inj h
      exact lockMove_goto rfl nofun nofun
    | succ n =>
      obtain rfl := Option.some.inj h
      refine lockMove_goto ?_ ?_ nofun
      · split_ifs <;> rfl
      · split_ifs <;> nofun
  | exchange again =>
    obtain rfl := Option.some.inj h
    refine ⟨?_, fun _ => rfl, fun _ => rfl⟩
    by_cases hfree : word = 0
    · exact Or.inl ⟨by rw [if_pos hfree]; rfl, hfree, lockWaited_ne_zero⟩
    · exact Or.inr (Or.inr ⟨by rw [if_neg hfree]; rfl, Or.inr ⟨hfree, rfl⟩⟩)
  | wait =>
    obtain rfl := Option.some.inj h
    split_ifs with hword
    · exact lockMove_goto rfl (fun _ => hword) nofun
    · exact lockMove_goto rfl nofun nofun
  | yield =>
    obtain rfl := Option.some.inj h
    exact lockMove_goto rfl nofun nofun
  | unlock =>
    obtain rfl := Option.some.inj h
    refine ⟨Or.inr (Or.inl ⟨rfl, ?_, rfl, fun hword => if_pos hword⟩), ?_, nofun⟩
    · show LockPc.holds (if word = lockWaited then .wake else .idle) = false
      split_ifs <;> rfl
    · show (if word = lockWaited then LockPc.wake else .idle) = .asleep → _
      split_ifs <;> nofun

end LockMove

namespace TableLock

variable {C : Type*}

/-! ## The invariant -/

/-- A free word has nobody inside, nobody is inside besides another, and whoever sleeps does so on a
word that is waited for, or somebody is on the way to wake or to exchange the word. -/
structure Inv (s : TableLock C) : Prop where
  free : s.word = 0 → ∀ c, (s.pc c).holds = false
  unique : ∀ c d, (s.pc c).holds = true → (s.pc d).holds = true → c = d
  sleep : ∀ x, s.pc x = .asleep →
    s.word = lockWaited ∨ ∃ y, s.pc y = .wake ∨ s.pc y = .exchange true

theorem inv_start : (start : TableLock C).Inv where
  free := fun _ _ => rfl
  unique := fun _ _ h => by cases h
  sleep := fun _ h => by cases h

variable [DecidableEq C] {s : TableLock C} {c : C}

theorem write_pc_self (w : BitVec 32 × LockPc) : (s.write c w).pc c = w.2 := Function.update_self ..

theorem write_pc_of_ne {x : C} (h : x ≠ c) (w : BitVec 32 × LockPc) :
    (s.write c w).pc x = s.pc x := Function.update_of_ne h ..

/-- **A step that wakes nobody** keeps the invariant. -/
theorem Inv.write (hi : s.Inv) {w : BitVec 32 × LockPc} (hm : LockMove s.word (s.pc c) w)
    (hwake : s.pc c ≠ .wake) : (s.write c w).Inv where
  free := by
    intro hfree x
    replace hfree : w.1 = 0 := hfree
    by_cases hxc : x = c
    · subst hxc
      rw [write_pc_self]
      rcases hm.hold with ⟨-, -, hword⟩ | ⟨-, hout, -⟩ | ⟨hsame, hword⟩
      · exact absurd hfree hword
      · exact hout
      · rw [hsame]
        apply hi.free
        rcases hword with hword | ⟨-, hword⟩
        · exact hword.symm.trans hfree
        · exact absurd (hword.symm.trans hfree) lockWaited_ne_zero
    · rw [write_pc_of_ne hxc]
      rcases hm.hold with ⟨-, -, hword⟩ | ⟨hheld, -⟩ | ⟨-, hword⟩
      · exact absurd hfree hword
      · -- the one that gave it back was alone
        rw [Bool.eq_false_iff]
        exact fun hx => hxc (hi.unique x c hx hheld)
      · apply hi.free
        rcases hword with hword | ⟨-, hword⟩
        · exact hword.symm.trans hfree
        · exact absurd (hword.symm.trans hfree) lockWaited_ne_zero
  unique := by
    -- whoever takes the word found it free, so that nobody is inside
    have hone : ∀ x, x ≠ c → w.2.holds = true → (s.pc x).holds = false := by
      intro x hxc hc
      rcases hm.hold with ⟨-, hfree, -⟩ | ⟨-, hout, -⟩ | ⟨hsame, -⟩
      · exact hi.free hfree x
      · rw [hout] at hc
        cases hc
      · rw [Bool.eq_false_iff]
        exact fun hx => hxc (hi.unique x c hx (hsame.symm.trans hc))
    intro x y hx hy
    by_cases hxc : x = c
    · subst hxc
      rw [write_pc_self] at hx
      by_contra hxy
      rw [write_pc_of_ne (Ne.symm hxy), hone y (Ne.symm hxy) hx] at hy
      cases hy
    · rw [write_pc_of_ne hxc] at hx
      by_cases hyc : y = c
      · subst hyc
        rw [write_pc_self] at hy
        rw [hone x hxc hy] at hx
        cases hx
      · rw [write_pc_of_ne hyc] at hy
        exact hi.unique x y hx hy
  sleep := by
    intro x hx
    show w.1 = lockWaited ∨ _
    by_cases hxc : x = c
    · subst hxc
      rw [write_pc_self] at hx
      exact Or.inl (hm.asleep hx)
    · rw [write_pc_of_ne hxc] at hx
      rcases hi.sleep x hx with hword | ⟨y, hy⟩
      · -- a word that is waited for stays so until it is given back with a wake
        rcases hm.hold with ⟨-, hfree, -⟩ | ⟨-, -, -, hnext⟩ | ⟨-, hsame | ⟨-, hagain⟩⟩
        · exact absurd (hword.symm.trans hfree) lockWaited_ne_zero
        · exact Or.inr ⟨c, Or.inl (by rw [write_pc_self, hnext hword])⟩
        · exact Or.inl (hsame.trans hword)
        · exact Or.inl hagain
      · by_cases hyc : y = c
        · subst hyc
          exact Or.inl (hm.again (hy.resolve_left hwake))
        · exact Or.inr ⟨y, by rwa [write_pc_of_ne hyc]⟩

/-- A wake is over, and nobody sleeps or somebody was released. -/
theorem Inv.finish (hi : s.Inv) (hc : s.pc c = .wake)
    (hnext : (∀ x, s.pc x ≠ .asleep) ∨ ∃ y, s.pc y = .exchange true) :
    (s.goto c .idle).Inv := by
  have hpc : ∀ x, (s.goto c .idle).pc x = if x = c then .idle else s.pc x := by
    intro x
    by_cases hxc : x = c
    · subst hxc
      rw [if_pos rfl, goto, write_pc_self]
    · rw [if_neg hxc, goto, write_pc_of_ne hxc]
  have hholds : ∀ x, ((s.goto c .idle).pc x).holds = (s.pc x).holds := by
    intro x
    rw [hpc]
    split_ifs with hxc
    · rw [hxc, hc]
      rfl
    · rfl
  refine ⟨fun hfree x => ?_, fun x y hx hy => ?_, fun x hx => Or.inr ?_⟩
  · rw [hholds]
    exact hi.free hfree x
  · rw [hholds] at hx hy
    exact hi.unique x y hx hy
  · rw [hpc] at hx
    split_ifs at hx with hxc
    obtain ⟨y, hy⟩ := hnext.resolve_left fun hno => hno x hx
    refine ⟨y, Or.inr ?_⟩
    rw [hpc, if_neg, hy]
    rintro rfl
    rw [hc] at hy
    cases hy

variable [Fintype C]

/-- **What a step is**: a step of one context that wakes nobody, a wake that finds nobody asleep, or
a wake that releases a sleeper. -/
theorem step_cases {t : TableLock C} {l : LockLabel C} (h : s.step l = some t) :
    (∃ c w, t = s.write c w ∧ LockMove s.word (s.pc c) w ∧ s.pc c ≠ .wake) ∨
      (∃ c, s.pc c = .wake ∧ (∀ x, s.pc x ≠ .asleep) ∧ t = s.goto c .idle) ∨
      ∃ c x, s.pc c = .wake ∧ s.pc x = .asleep ∧ t = (s.goto x (.exchange true)).goto c .idle := by
  -- a call, and a wait that returns, are moves from a known place
  have hgoto : ∀ {c pc pc'}, s.pc c = pc → s.goto c pc' = t → pc'.holds = pc.holds →
      pc' ≠ .asleep → pc ≠ .exchange true → pc ≠ .wake →
      ∃ c w, t = s.write c w ∧ LockMove s.word (s.pc c) w ∧ s.pc c ≠ .wake := by
    rintro c pc pc' rfl rfl hholds hasleep hagain hwake
    exact ⟨c, _, rfl, lockMove_goto hholds (fun hs => absurd hs hasleep) hagain, hwake⟩
  cases l with
  | lock c =>
    simp only [step, Option.ite_none_right_eq_some, Option.some.injEq] at h
    exact Or.inl (hgoto h.1 h.2 rfl nofun nofun nofun)
  | unlock c =>
    simp only [step, Option.ite_none_right_eq_some, Option.some.injEq] at h
    exact Or.inl (hgoto h.1 h.2 rfl nofun nofun nofun)
  | returned c =>
    simp only [step, Option.ite_none_right_eq_some, Option.some.injEq] at h
    exact Or.inl (hgoto h.1 h.2 rfl nofun nofun nofun)
  | unsupported c =>
    simp only [step, Option.ite_none_right_eq_some, Option.some.injEq] at h
    exact Or.inl (hgoto h.1 h.2 rfl nofun nofun nofun)
  | step c =>
    obtain ⟨w, hw, rfl⟩ := Option.map_eq_some_iff.mp h
    refine Or.inl ⟨c, w, rfl, lockMove_next hw, fun hwake => ?_⟩
    rw [hwake] at hw
    cases hw
  | wake c x =>
    right
    cases x with
    | none =>
      simp only [step, Option.ite_none_right_eq_some, Option.some.injEq] at h
      exact Or.inl ⟨c, h.1.1, h.1.2, h.2.symm⟩
    | some x =>
      simp only [step, Option.ite_none_right_eq_some, Option.some.injEq] at h
      exact Or.inr ⟨c, x, h.1.1, h.1.2, h.2.symm⟩

theorem Inv.step {t : TableLock C} {l : LockLabel C} (hi : s.Inv) (h : s.step l = some t) :
    t.Inv := by
  rcases step_cases h with ⟨c, w, rfl, hm, hc⟩ | ⟨c, hc, hno, rfl⟩ | ⟨c, x, hc, hx, rfl⟩
  · exact hi.write hm hc
  · exact hi.finish hc (Or.inl hno)
  · have hcx : c ≠ x := by
      rintro rfl
      rw [hc] at hx
      cases hx
    have hmove : LockMove s.word (s.pc x) (s.word, .exchange true) := by
      rw [hx]
      exact lockMove_goto rfl nofun nofun
    have hmid : (s.goto x (.exchange true)).Inv := hi.write hmove (by rw [hx]; nofun)
    refine hmid.finish ?_ (Or.inr ⟨x, ?_⟩)
    · rw [goto, write_pc_of_ne hcx, hc]
    · rw [goto, write_pc_self]

/-- **The table's lock excludes and wakes**: in every run at most one context is between lock and
unlock, and no context sleeps on a free word with nobody on the way to wake it or to retry. -/
theorem lock_excludes_and_wakes {s : TableLock C} (h : Reachable step start s) :
    (∀ c d, (s.pc c).holds = true → (s.pc d).holds = true → c = d) ∧ ¬ s.Stranded := by
  have hi : s.Inv := h.invariant inv_start fun _ _ _ hu hv => hu.step hv
  refine ⟨hi.unique, ?_⟩
  rintro ⟨hfree, ⟨x, hx⟩, hno⟩
  rcases hi.sleep x hx with hword | hon
  · exact lockWaited_ne_zero (hword.symm.trans hfree)
  · exact hno hon

/-- One context takes the lock, the other looks and falls asleep, and the first gives it back and
stands before its wake. -/
def handing : List (LockLabel Bool) :=
  [.lock true, .step true] ++ (.lock false :: List.replicate 68 (.step false)) ++
    [.unlock true, .step true]

theorem lock_excludes_and_wakes_handing :
    ∃ s : TableLock Bool, Reachable step start s ∧ s.word = 0 ∧ s.pc false = .asleep ∧
      s.pc true = .wake ∧ (∀ c d, (s.pc c).holds = true → (s.pc d).holds = true → c = d) ∧
      ¬ s.Stranded := by
  have hrun : (run step start handing).map (fun s => (s.word, s.pc false, s.pc true)) =
      some (0, .asleep, .wake) := by decide +kernel
  obtain ⟨s, hs, hpc⟩ := Option.map_eq_some_iff.mp hrun
  simp only [Prod.mk.injEq] at hpc
  have hreach : Reachable step start s := ⟨handing, hs⟩
  exact ⟨s, hreach, hpc.1, hpc.2.1, hpc.2.2, lock_excludes_and_wakes hreach⟩

end TableLock

end OpenkalMusl
