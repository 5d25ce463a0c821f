import OpenkalMusl.Bits.Marked
import OpenkalMusl.Transition.Parking

/-!
# Locks for readers and a writer

`pthread_rwlock_tryrdlock`, `pthread_rwlock_trywrlock`, `pthread_rwlock_timedrdlock`,
`pthread_rwlock_timedwrlock` and `pthread_rwlock_unlock` of musl on one lock
(`pthread_rwlock_rdlock` and `pthread_rwlock_wrlock` are those without a deadline), as any number of
contexts interleave their atomic steps. The word counts the readers, or is full where a writer
holds it, and its high bit marks that a context may sleep on it. A reader waits only for a writer;
the last reader wakes one sleeper and a writer wakes all.

A futex wait sleeps only while the word holds the value expected and may return without a wake. The
count of waiters is a natural number: it is at most the number of contexts.

## Main definitions

* `RwPc`, `RwContext`: where a context is in these functions, and what it holds
* `RwContext.next`: its next atomic step
* `readersWriter`: the protocol, and `RwState` its contexts on one lock

## Main results

* `rwMove_act`: what one atomic step of one context can do
* `rwlock_excludes_and_wakes`: a writer excludes everybody, the word counts the readers, and nobody
  sleeps on a free lock with no wake on its way
-/

namespace OpenkalMusl

open Transition Marked

/-- A lock for readers and a writer. -/
structure Rwlock where
  /-- `_rw_lock` and `_rw_waiters`. -/
  lock : BitVec 32
  waiters : ℕ

/-- What a context wants of the lock: to read, or to write. -/
inductive RwWant where
  | read
  | write
  deriving DecidableEq

/-- What the lock is tried for: by itself, at the start of a call that waits, or in its loop. -/
inductive RwTry where
  | alone
  | first (deadline : Bool)
  | loop (deadline : Bool)
  deriving DecidableEq

/-- Where a context is. What it has read is kept with it. -/
inductive RwPc where
  | idle
  /-- `__pthread_rwlock_tryrdlock` and `__pthread_rwlock_trywrlock`. -/
  | tryRead (how : RwTry)
  | tryReadCas (how : RwTry) (val : BitVec 32)
  | tryWrite (how : RwTry)
  /-- The spin, and the loop. -/
  | spin (want : RwWant) (deadline : Bool) (spins : ℕ)
  | spinWaiters (want : RwWant) (deadline : Bool) (spins : ℕ)
  | load (want : RwWant) (deadline : Bool)
  | inc (want : RwWant) (deadline : Bool) (r : BitVec 32)
  | mark (want : RwWant) (deadline : Bool) (r : BitVec 32)
  | wait (want : RwWant) (deadline : Bool) (t : BitVec 32)
  | asleep (want : RwWant) (deadline : Bool)
  | dec (want : RwWant) (deadline ended : Bool)
  /-- `__pthread_rwlock_unlock`. -/
  | unlockLoad
  | unlockWaiters (val : BitVec 32)
  | unlockCas (val : BitVec 32) (waiters : ℕ)
  | wake (all : Bool)
  deriving DecidableEq

/-- A context, and what it holds: it may hold the lock for reading several times. -/
structure RwContext where
  pc : RwPc
  reads : ℕ
  writes : Bool
  deriving DecidableEq

inductive RwCall where
  | tryrdlock | trywrlock | unlock
  | rdlock (deadline : Bool)
  | wrlock (deadline : Bool)
  deriving DecidableEq

def RwTry.start (how : RwTry) : RwWant → RwPc
  | .read => .tryRead how
  | .write => .tryWrite how

def RwCall.start : RwCall → RwPc
  | .tryrdlock => .tryRead .alone
  | .trywrlock => .tryWrite .alone
  | .unlock => .unlockLoad
  | .rdlock deadline => .tryRead (.first deadline)
  | .wrlock deadline => .tryWrite (.first deadline)

inductive RwAct where
  | call (f : RwCall)
  | step
  /-- A wait returns without a wake, or because its deadline passed. -/
  | returned
  | expired
  deriving DecidableEq

/-- Where a lock that is busy leaves a context. -/
def RwTry.busy (want : RwWant) : RwTry → RwPc
  | .alone => .idle
  | .first deadline => .spin want deadline 100
  | .loop deadline => .load want deadline

namespace RwContext

def goto (p : RwContext) (pc : RwPc) : RwContext := { p with pc }

/-- What a context gives back with an unlock. -/
def unlocked (p : RwContext) (pc : RwPc) : RwContext :=
  if p.writes then { p with pc, writes := false } else { p with pc, reads := p.reads - 1 }

/-- The next atomic step of a context that neither sleeps nor wakes. -/
def next (s : Rwlock) (p : RwContext) : Option (Rwlock × RwContext) :=
  match p.pc with
  | .tryRead how =>
    let cnt := s.lock &&& bits
    -- one reader fewer than full is answered `EAGAIN`
    some (s, p.goto
      (if cnt = bits then how.busy .read
      else if cnt = 0x7ffffffe then .idle else .tryReadCas how s.lock))
  | .tryReadCas how val =>
    some (if s.lock = val then
        ({ s with lock := val + 1 }, { p with pc := .idle, reads := p.reads + 1 })
      else (s, p.goto (.tryRead how)))
  | .tryWrite how =>
    some (if s.lock = 0 then ({ s with lock := bits }, { p with pc := .idle, writes := true })
      else (s, p.goto (how.busy .write)))
  | .spin want deadline 0 => some (s, p.goto ((RwTry.loop deadline).start want))
  | .spin want deadline (n + 1) =>
    some (s, p.goto
      (if s.lock = 0 then (RwTry.loop deadline).start want else .spinWaiters want deadline n))
  | .spinWaiters want deadline n =>
    some (s, p.goto
      (if s.waiters ≠ 0 then (RwTry.loop deadline).start want else .spin want deadline n))
  | .load want deadline =>
    -- a reader waits for a writer only
    some (s, p.goto
      (if s.lock = 0 ∨ want = .read ∧ s.lock &&& bits ≠ bits then
        (RwTry.loop deadline).start want
      else .inc want deadline s.lock))
  | .inc want deadline r =>
    some ({ s with waiters := s.waiters + 1 }, p.goto (.mark want deadline r))
  | .mark want deadline r =>
    let t := r ||| Marked.mark
    some ({ s with lock := if s.lock = r then t else s.lock }, p.goto (.wait want deadline t))
  | .wait want deadline t =>
    some (s, p.goto (if s.lock = t then .asleep want deadline else .dec want deadline false))
  | .dec want deadline ended =>
    some ({ s with waiters := s.waiters - 1 },
      p.goto (if ended then .idle else (RwTry.loop deadline).start want))
  | .unlockLoad => some (s, p.goto (.unlockWaiters s.lock))
  | .unlockWaiters val => some (s, p.goto (.unlockCas val s.waiters))
  | .unlockCas val waiters =>
    let cnt := val &&& bits
    let new := if cnt = bits ∨ cnt = 1 then 0 else val - 1
    some (if s.lock = val then
        ({ s with lock := new }, p.unlocked
          (if new = 0 ∧ (waiters ≠ 0 ∨ val.msb = true) then .wake (decide (cnt = bits))
          else .idle))
      else (s, p.goto .unlockLoad))
  | .idle | .asleep _ _ | .wake _ => none

/-- It holds the lock. -/
def Holds (p : RwContext) : Prop := 0 < p.reads ∨ p.writes = true

instance (p : RwContext) : Decidable p.Holds := inferInstanceAs (Decidable (_ ∨ _))

/-- An atomic step, a call, or the end of a wait. Only a context that holds the lock unlocks it. -/
def act (s : Rwlock) (p : RwContext) : RwAct → Option (Rwlock × RwContext)
  | .call f =>
    if p.pc = .idle ∧ (f = .unlock → p.Holds) then some (s, p.goto f.start) else none
  | .step => p.next s
  | .returned =>
    match p.pc with
    | .asleep want deadline => some (s, p.goto (.dec want deadline false))
    | _ => none
  | .expired =>
    match p.pc with
    | .wait want true _ | .asleep want true => some (s, p.goto (.dec want true true))
    | _ => none

def released (p : RwContext) : RwContext :=
  match p.pc with
  | .asleep want deadline => p.goto (.dec want deadline false)
  | _ => p

end RwContext

/-- The protocol of a lock for readers and a writer. -/
def readersWriter (C : Type*) : Parking C Rwlock RwContext RwAct Unit where
  act := fun _ => RwContext.act
  sleepsOn := fun _ p => match p.pc with
    | .asleep _ _ => some ()
    | _ => none
  released := RwContext.released
  wakes := fun p => match p.pc with
    | .wake all => some (⟨(), all⟩, p.goto .idle)
    | _ => none

/-- Contexts on one lock. -/
abbrev RwState (C : Type*) := Parked C Rwlock RwContext

/-- A lock nobody has used. -/
def RwState.start {C : Type*} : RwState C := ⟨⟨0, 0⟩, fun _ => ⟨.idle, 0, false⟩⟩

/-! ## What one step can do -/

namespace RwPc

/-- Asleep. -/
def sleeping : RwPc → ℕ
  | .asleep _ _ => 1
  | _ => 0

/-- About to try the lock once more before it would sleep. -/
def trying : RwPc → ℕ
  | .dec _ _ false | .tryRead (.loop _) | .tryReadCas (.loop _) _ | .tryWrite (.loop _) => 1
  | _ => 0

/-- About to wake. -/
def waking : RwPc → ℕ
  | .wake _ => 1
  | _ => 0

/-- Between the increment of the count and its decrement. -/
def counted : RwPc → ℕ
  | .mark _ _ _ | .wait _ _ _ | .asleep _ _ | .dec _ _ _ => 1
  | _ => 0

/-- In an unlock, before it has given the lock back. -/
def unlocking : RwPc → Bool
  | .unlockLoad | .unlockWaiters _ | .unlockCas _ _ => true
  | _ => false

/-- About to give the lock back without a wake, should the word be as it was read. -/
def Quiet (pc : RwPc) : Prop := ∃ val, pc = .unlockCas val 0 ∧ val.msb = false

theorem sleeping_le_counted (pc : RwPc) : pc.sleeping ≤ pc.counted := by
  cases pc <;> first | exact le_rfl | exact Nat.zero_le _

/-- What was read leaves room for a reader, or is a lock that is held; what a wait expects is
marked. -/
def Read : RwPc → Prop
  | .tryReadCas _ val => low val < 2 ^ 31 - 2
  | .inc _ _ r | .mark _ _ r => low r ≠ 0
  | .wait _ _ t => t.msb = true
  | _ => True

end RwPc

namespace RwContext

/-- One for a writer. -/
def writers (p : RwContext) : ℕ := if p.writes then 1 else 0

/-- What it read is as it should be, and it gives back only what it holds. -/
structure Ok (p : RwContext) : Prop where
  read : p.pc.Read
  unlocking : p.pc.unlocking = true → p.Holds

end RwContext

/-- What a step of a context does to what the lock and the context hold. -/
inductive RwHeld (s : Rwlock) (p : RwContext) (s' : Rwlock) (p' : RwContext) : Prop where
  | same (hlow : low s'.lock = low s.lock) (hreads : p'.reads = p.reads)
      (hwrites : p'.writers = p.writers)
  | read (hlow : low s'.lock = low s.lock + 1) (hroom : low s'.lock < 2 ^ 31 - 1)
      (hreads : p'.reads = p.reads + 1) (hwrites : p'.writers = p.writers)
  | write (hlow : low s.lock = 0) (hlow' : low s'.lock = 2 ^ 31 - 1) (hreads : p'.reads = p.reads)
      (hwrites : p'.writers = p.writers + 1)
  | unread (hlow : low s.lock = low s'.lock + 1) (hroom : low s.lock < 2 ^ 31 - 1)
      (hreads : p.reads = p'.reads + 1) (hwrites : p'.writers = p.writers)
  | unwrite (hlow : low s.lock = 2 ^ 31 - 1) (hlow' : low s'.lock = 0) (hreads : p'.reads = p.reads)
      (hwrites : p.writers = p'.writers + 1)

/-- What an atomic step of a context at `p` does: it leaves the context at `p'`. -/
structure RwMove (s : Rwlock) (p : RwContext) (s' : Rwlock) (p' : RwContext) : Prop where
  ok : p'.Ok
  counted : s'.waiters + p.pc.counted = s.waiters + p'.pc.counted
  held : RwHeld s p s' p'
  free : low s'.lock = 0 → s'.lock = 0
  awake : p.pc.waking = 0
  asleep : p'.pc.sleeping ≠ 0 → s'.lock.msb = true
  /-- A context that stops trying leaves a lock that is held, and one that frees the lock wakes,
  unless it saw neither a mark nor waiters. -/
  sleep : s'.lock = 0 → (s.lock = 0 ∧ p.pc.trying ≤ p'.pc.trying) ∨ p'.pc.waking ≠ 0 ∨
    (p.pc.Quiet ∧ s.lock.msb = false)
  quiet : p'.pc.Quiet → s.waiters = 0
  mark : s.lock.msb = true → s'.lock.msb = true ∨ s'.lock = 0

/-- The lock and a context, as the others leave them. -/
structure RwHere (s : Rwlock) (p : RwContext) : Prop where
  ok : p.Ok
  counted : p.pc.counted ≤ s.waiters
  full : low s.lock = 2 ^ 31 - 1 → p.reads = 0
  room : low s.lock ≠ 2 ^ 31 - 1 → p.writers = 0 ∧ p.reads ≤ low s.lock
  free : low s.lock = 0 → s.lock = 0

section RwMove

variable {s : Rwlock} {p : RwContext}

/-- A context that only moves, and neither to sleep nor to a quiet unlock. -/
theorem rwMove_goto (hp : RwHere s p) {pc : RwPc} (hread : pc.Read)
    (hunlocking : pc.unlocking = true → p.Holds) (hcounted : pc.counted = p.pc.counted)
    (hawake : p.pc.waking = 0) (hasleep : pc.sleeping = 0)
    (htrying : s.lock = 0 → p.pc.trying ≤ pc.trying) (hquiet : pc.Quiet → s.waiters = 0) :
    RwMove s p s (p.goto pc) where
  ok := ⟨hread, hunlocking⟩
  counted := by
    show s.waiters + _ = s.waiters + pc.counted
    rw [hcounted]
  held := .same rfl rfl rfl
  free := hp.free
  awake := hawake
  asleep := fun h => absurd hasleep h
  sleep := fun h => Or.inl ⟨h, htrying h⟩
  quiet := hquiet
  mark := Or.inl

/-- A place outside the unlock. -/
theorem not_quiet {pc : RwPc} (h : pc.unlocking = false) : ¬ pc.Quiet := by
  rintro ⟨val, rfl, -⟩
  cases h

/-- A move outside the unlock, from a place that is not about to try again. -/
theorem rwMove_away (hp : RwHere s p) {pc : RwPc} (hread : pc.Read)
    (hunlocking : pc.unlocking = false) (hcounted : pc.counted = p.pc.counted)
    (hawake : p.pc.waking = 0) (hasleep : pc.sleeping = 0)
    (htrying : s.lock = 0 → p.pc.trying ≤ pc.trying) : RwMove s p s (p.goto pc) :=
  rwMove_goto hp hread (fun h => by rw [hunlocking] at h; cases h) hcounted hawake hasleep htrying
    fun h => absurd h (not_quiet hunlocking)

/-- What is tried in the loop is tried by a context that is trying. -/
theorem start_place (deadline : Bool) (want : RwWant) :
    ((RwTry.loop deadline).start want).Read ∧ ((RwTry.loop deadline).start want).unlocking = false ∧
      ((RwTry.loop deadline).start want).counted = 0 ∧
      ((RwTry.loop deadline).start want).sleeping = 0 ∧
      ((RwTry.loop deadline).start want).trying = 1 := by
  cases want <;> exact ⟨trivial, rfl, rfl, rfl, rfl⟩

theorem busy_place (how : RwTry) (want : RwWant) :
    (how.busy want).Read ∧ (how.busy want).unlocking = false ∧ (how.busy want).counted = 0 ∧
      (how.busy want).sleeping = 0 := by
  cases how <;> exact ⟨trivial, rfl, rfl, rfl⟩

/-- A context goes on to try in its loop. -/
theorem rwMove_retry (hp : RwHere s p) (deadline : Bool) (want : RwWant)
    (hcounted : p.pc.counted = 0) (hawake : p.pc.waking = 0) :
    RwMove s p s (p.goto ((RwTry.loop deadline).start want)) := by
  obtain ⟨hread, hunlocking, hcounted', hasleep, htrying⟩ := start_place deadline want
  refine rwMove_away hp hread hunlocking (hcounted'.trans hcounted.symm) hawake hasleep fun _ => ?_
  rw [htrying]
  cases p.pc <;> first | exact Nat.zero_le _ | skip
  all_goals (unfold RwPc.trying; split <;> omega)

/-- A context that finds a held lock goes on. -/
theorem rwMove_held (hp : RwHere s p) {pc : RwPc} (hread : pc.Read)
    (hunlocking : pc.unlocking = false) (hcounted : pc.counted = p.pc.counted)
    (hawake : p.pc.waking = 0) (hasleep : pc.sleeping = 0)
    (hlock : s.lock ≠ 0) : RwMove s p s (p.goto pc) :=
  rwMove_away hp hread hunlocking hcounted hawake hasleep fun h => absurd h hlock

theorem bits_ne_zero : bits ≠ 0 := by decide

/-- The last to give the lock back frees it, and wakes unless it saw neither a mark nor waiters. -/
theorem rwMove_free {waiters : ℕ} (hpc : p.pc = .unlockCas s.lock waiters)
    {p' : RwContext} (all : Bool) (hheld : RwHeld s p { s with lock := 0 } p')
    (hp' : p'.pc = if waiters ≠ 0 ∨ s.lock.msb = true then .wake all else .idle) :
    RwMove s p { s with lock := 0 } p' := by
  have hplace : p'.pc.Read ∧ p'.pc.unlocking = false ∧ p'.pc.counted = 0 ∧ p'.pc.sleeping = 0 := by
    rw [hp']
    split_ifs <;> exact ⟨trivial, rfl, rfl, rfl⟩
  obtain ⟨hread, hunlocking, hcounted, hasleep⟩ := hplace
  refine ⟨⟨hread, fun hu => ?_⟩, ?_, hheld, fun _ => rfl, by rw [hpc]; rfl,
    fun hs => absurd hasleep hs, fun _ => Or.inr ?_, fun hq => absurd hq (not_quiet hunlocking),
    fun _ => Or.inr rfl⟩
  · exact absurd (hunlocking.symm.trans hu) (by decide)
  · rw [hpc, hcounted]
    rfl
  · rw [hp']
    by_cases hsome : waiters ≠ 0 ∨ s.lock.msb = true
    · rw [if_pos hsome]
      exact Or.inl Nat.one_ne_zero
    · push Not at hsome
      have hmark : s.lock.msb = false := by simpa using hsome.2
      exact Or.inr ⟨⟨s.lock, by rw [hpc, hsome.1], hmark⟩, hmark⟩

/-- What an unlock does to a lock whose word is as it was read. -/
theorem rwMove_unlock (hp : RwHere s p) {waiters : ℕ} (hpc : p.pc = .unlockCas s.lock waiters)
    (new : BitVec 32)
    (hnew : new = if s.lock &&& bits = bits ∨ s.lock &&& bits = 1 then 0 else s.lock - 1) :
    RwMove s p { s with lock := new } (p.unlocked
      (if new = 0 ∧ (waiters ≠ 0 ∨ s.lock.msb = true) then
        .wake (decide (s.lock &&& bits = bits)) else .idle)) := by
  have hholds : p.Holds := hp.ok.unlocking (by rw [hpc]; rfl)
  have hlow₀ : low 0 = 0 := rfl
  have hone : (1 : BitVec 32).toNat = 1 := rfl
  have hbits : bits.toNat = 2 ^ 31 - 1 := rfl
  have hlt := low_lt s.lock
  have hlast : (s.lock &&& bits = bits ∨ s.lock &&& bits = 1) ↔
      low s.lock = 2 ^ 31 - 1 ∨ low s.lock = 1 := by
    rw [and_bits_eq, and_bits_eq, hbits, hone]
  by_cases hfull : low s.lock = 2 ^ 31 - 1
  · -- a writer holds it, and so this context does
    have hwrites : p.writes = true := hholds.resolve_left (by have := hp.full hfull; omega)
    rw [if_pos (hlast.mpr (Or.inl hfull))] at hnew
    subst hnew
    refine rwMove_free hpc (decide (s.lock &&& bits = bits)) ?_ ?_
    · refine .unwrite hfull hlow₀ ?_ ?_ <;> simp [RwContext.unlocked, RwContext.writers, hwrites]
    · simp only [RwContext.unlocked, hwrites, if_true, true_and]
  · obtain ⟨hwriters, hreads⟩ := hp.room hfull
    have hwrites : p.writes = false := by
      by_contra hw
      simp [RwContext.writers, Bool.not_eq_false _ ▸ hw] at hwriters
    have hpos : 0 < p.reads := hholds.resolve_right (by rw [hwrites]; decide)
    have hunlocked : ∀ pc, p.unlocked pc = { p with pc, reads := p.reads - 1 } := by
      intro pc
      simp [RwContext.unlocked, hwrites]
    rw [hunlocked]
    by_cases hread : low s.lock = 1
    · rw [if_pos (hlast.mpr (Or.inr hread))] at hnew
      subst hnew
      refine rwMove_free hpc (decide (s.lock &&& bits = bits)) ?_ ?_
      · exact .unread (by show low s.lock = low 0 + 1; omega) (by omega)
          (by show p.reads = p.reads - 1 + 1; omega) rfl
      · simp only [true_and]
    · rw [if_neg fun h => (hlast.mp h).elim hfull hread] at hnew
      subst hnew
      obtain ⟨hlow, hmark⟩ := low_sub_one (w := s.lock) (by omega)
      have hne : low (s.lock - 1) ≠ 0 := by omega
      have hheld : s.lock - 1 ≠ 0 := fun hzero => hne (eq_zero_iff.mp hzero).1
      rw [if_neg fun hgo => hheld hgo.1]
      exact ⟨⟨trivial, nofun⟩, by rw [hpc]; rfl,
        .unread hlow.symm (by omega) (by show p.reads = p.reads - 1 + 1; omega) rfl,
        fun hzero => absurd hzero hne, by rw [hpc]; rfl, nofun, fun hzero => absurd hzero hheld,
        fun hq => absurd hq (not_quiet rfl), fun hm => Or.inl (hmark.trans hm)⟩

theorem rwMove_next {w : Rwlock × RwContext} (hp : RwHere s p) (h : p.next s = some w) :
    RwMove s p w.1 w.2 := by
  have hok := hp.ok.read
  have hcount := hp.counted
  unfold RwContext.next at h
  cases hpc : p.pc with
  | idle => simp [hpc] at h
  | asleep want deadline => simp [hpc] at h
  | wake all => simp [hpc] at h
  | tryRead how =>
    rw [hpc] at h
    obtain rfl := Option.some.inj h
    have hlt := low_lt s.lock
    split_ifs with hfull hlast
    · obtain ⟨hread, hunlocking, hcounted, hasleep⟩ := busy_place how .read
      refine rwMove_held hp hread hunlocking (by rw [hcounted, hpc]; rfl) (by rw [hpc]; rfl)
        hasleep ?_
      intro hzero
      rw [hzero] at hfull
      exact absurd hfull (by decide)
    · refine rwMove_held hp trivial rfl (by rw [hpc]; rfl) (by rw [hpc]; rfl) rfl ?_
      intro hzero
      rw [hzero] at hlast
      exact absurd hlast (by decide)
    · rw [and_bits_eq] at hfull hlast
      have hroom : low s.lock < 2 ^ 31 - 2 := by
        have h₁ : bits.toNat = 2 ^ 31 - 1 := rfl
        have h₂ : (0x7ffffffe : BitVec 32).toNat = 2 ^ 31 - 2 := rfl
        omega
      refine rwMove_away hp hroom rfl (by rw [hpc]; rfl) (by rw [hpc]; rfl) rfl fun _ => ?_
      rw [hpc]
      cases how <;> exact le_rfl
  | tryReadCas how val =>
    rw [hpc] at h hok
    obtain rfl := Option.some.inj h
    split_ifs with hval
    · -- one reader more
      subst hval
      have hroom : low s.lock < 2 ^ 31 - 2 := hok
      obtain ⟨hlow, hmark⟩ := low_add_one (w := s.lock) (by omega)
      refine ⟨⟨trivial, nofun⟩, by rw [hpc]; rfl, ?_, ?_, by rw [hpc]; rfl, nofun, ?_, ?_, ?_⟩
      · exact .read hlow (by show low (s.lock + 1) < _; omega) rfl rfl
      · exact fun hzero => absurd hzero (by show low (s.lock + 1) ≠ 0; omega)
      · intro hzero
        have : low (s.lock + 1) = 0 := (eq_zero_iff.mp hzero).1
        omega
      · exact fun hq => absurd hq (not_quiet rfl)
      · exact fun hm => Or.inl (hmark.trans hm)
    · refine rwMove_away hp trivial rfl (by rw [hpc]; rfl) (by rw [hpc]; rfl) rfl fun _ => ?_
      rw [hpc]
      cases how <;> exact le_rfl
  | tryWrite how =>
    rw [hpc] at h
    obtain rfl := Option.some.inj h
    split_ifs with hfree
    · have hlow : low s.lock = 0 := (eq_zero_iff.mp hfree).1
      have hwrites : p.writers = 0 := (hp.room (by omega)).1
      have hbits : low bits = 2 ^ 31 - 1 := rfl
      refine ⟨⟨trivial, nofun⟩, by rw [hpc]; rfl, ?_, ?_, by rw [hpc]; rfl, nofun, ?_, ?_, ?_⟩
      · refine .write hlow hbits rfl ?_
        rw [hwrites]
        rfl
      · exact fun hzero => absurd hzero (by show low bits ≠ 0; omega)
      · exact fun hzero => absurd hzero bits_ne_zero
      · exact fun hq => absurd hq (not_quiet rfl)
      · intro hm
        rw [hfree] at hm
        exact absurd hm (by decide)
    · obtain ⟨hread, hunlocking, hcounted, hasleep⟩ := busy_place how .write
      exact rwMove_held hp hread hunlocking (by rw [hcounted, hpc]; rfl) (by rw [hpc]; rfl)
        hasleep hfree
  | spin want deadline n =>
    rw [hpc] at h
    cases n with
    | zero =>
      obtain rfl := Option.some.inj h
      exact rwMove_retry hp deadline want (by rw [hpc]; rfl) (by rw [hpc]; rfl)
    | succ n =>
      obtain rfl := Option.some.inj h
      split_ifs with hfree
      · exact rwMove_retry hp deadline want (by rw [hpc]; rfl) (by rw [hpc]; rfl)
      · exact rwMove_held hp trivial rfl (by rw [hpc]; rfl) (by rw [hpc]; rfl) rfl hfree
  | spinWaiters want deadline n =>
    rw [hpc] at h
    obtain rfl := Option.some.inj h
    split_ifs
    · exact rwMove_retry hp deadline want (by rw [hpc]; rfl) (by rw [hpc]; rfl)
    · exact rwMove_away hp trivial rfl (by rw [hpc]; rfl) (by rw [hpc]; rfl) rfl
        fun _ => by rw [hpc]; exact Nat.zero_le _
  | load want deadline =>
    rw [hpc] at h
    obtain rfl := Option.some.inj h
    split_ifs with hgo
    · exact rwMove_retry hp deadline want (by rw [hpc]; rfl) (by rw [hpc]; rfl)
    · have hheld : s.lock ≠ 0 := fun hzero => hgo (Or.inl hzero)
      exact rwMove_held hp (fun hzero => hheld (hp.free hzero)) rfl (by rw [hpc]; rfl)
        (by rw [hpc]; rfl) rfl hheld
  | inc want deadline r =>
    rw [hpc] at h hok
    obtain rfl := Option.some.inj h
    refine ⟨⟨hok, nofun⟩, by rw [hpc]; rfl, .same rfl rfl rfl, hp.free, by rw [hpc]; rfl, nofun, ?_,
      fun hq => absurd hq (not_quiet rfl), Or.inl⟩
    exact fun hzero => Or.inl ⟨hzero, by rw [hpc]; exact Nat.zero_le _⟩
  | mark want deadline r =>
    rw [hpc] at h hok
    obtain rfl := Option.some.inj h
    obtain ⟨hlow, hmark⟩ := low_mark (w := r)
    by_cases hr : s.lock = r
    · have hne : low r ≠ 0 := hok
      rw [if_pos hr]
      refine ⟨⟨hmark, nofun⟩, by rw [hpc]; rfl, .same (by rw [hr]; exact hlow) rfl rfl, ?_,
        by rw [hpc]; rfl, nofun, ?_, fun hq => absurd hq (not_quiet rfl), fun _ => Or.inl hmark⟩
      · exact fun hzero => absurd (hlow.symm.trans hzero) hne
      · exact fun hzero => absurd (hlow.symm.trans (eq_zero_iff.mp hzero).1) hne
    · rw [if_neg hr]
      exact rwMove_away hp hmark rfl (by rw [hpc]; rfl) (by rw [hpc]; rfl) rfl
        fun _ => by rw [hpc]; exact Nat.zero_le _
  | wait want deadline t =>
    rw [hpc] at h hok
    obtain rfl := Option.some.inj h
    split_ifs with ht
    · -- the only way to sleep: the word is the marked one
      have hmark : s.lock.msb = true := ht ▸ hok
      refine ⟨⟨trivial, nofun⟩, by rw [hpc]; rfl, .same rfl rfl rfl, hp.free, by rw [hpc]; rfl,
        fun _ => hmark, ?_, fun hq => absurd hq (not_quiet rfl), Or.inl⟩
      intro hzero
      rw [hzero] at hmark
      exact absurd hmark (by decide)
    · exact rwMove_away hp trivial rfl (by rw [hpc]; rfl) (by rw [hpc]; rfl) rfl
        fun _ => by rw [hpc]; exact Nat.zero_le _
  | dec want deadline ended =>
    rw [hpc] at h hcount
    obtain rfl := Option.some.inj h
    have hpos : 1 ≤ s.waiters := hcount
    have hless : s.waiters - 1 + 1 = s.waiters + 0 := by omega
    cases ended
    · obtain ⟨hread, hunlocking, hcounted, hasleep, htrying⟩ := start_place deadline want
      rw [if_neg (by decide)]
      refine ⟨⟨hread, fun hu => ?_⟩, ?_, .same rfl rfl rfl, hp.free, by rw [hpc]; rfl,
        fun hs => absurd hasleep hs, fun hzero => Or.inl ⟨hzero, ?_⟩,
        fun hq => absurd hq (not_quiet hunlocking), Or.inl⟩
      · exact absurd (hunlocking.symm.trans hu) (by decide)
      · rw [hpc]
        show s.waiters - 1 + 1 = s.waiters + ((RwTry.loop deadline).start want).counted
        rw [hcounted]
        exact hless
      · rw [hpc]
        exact htrying.ge
    · rw [if_pos rfl]
      exact ⟨⟨trivial, nofun⟩, by rw [hpc]; exact hless, .same rfl rfl rfl, hp.free,
        by rw [hpc]; rfl, nofun, fun hzero => Or.inl ⟨hzero, by rw [hpc]; exact Nat.zero_le _⟩,
        fun hq => absurd hq (not_quiet rfl), Or.inl⟩
  | unlockLoad =>
    have hholds := hp.ok.unlocking (by rw [hpc]; rfl)
    rw [hpc] at h
    obtain rfl := Option.some.inj h
    exact rwMove_goto hp trivial (fun _ => hholds) (by rw [hpc]; rfl) (by rw [hpc]; rfl) rfl
      (fun _ => by rw [hpc]; exact Nat.zero_le _) nofun
  | unlockWaiters val =>
    have hholds := hp.ok.unlocking (by rw [hpc]; rfl)
    rw [hpc] at h
    obtain rfl := Option.some.inj h
    refine rwMove_goto hp trivial (fun _ => hholds) (by rw [hpc]; rfl) (by rw [hpc]; rfl) rfl
      (fun _ => by rw [hpc]; exact Nat.zero_le _) ?_
    rintro ⟨v, hv, -⟩
    exact (RwPc.unlockCas.inj hv).2
  | unlockCas val waiters =>
    have hholds := hp.ok.unlocking (by rw [hpc]; rfl)
    rw [hpc] at h
    obtain rfl := Option.some.inj h
    by_cases hval : s.lock = val
    · subst hval
      simp only [if_true]
      exact rwMove_unlock hp hpc _ rfl
    · rw [if_neg hval]
      exact rwMove_goto hp trivial (fun _ => hholds) (by rw [hpc]; rfl) (by rw [hpc]; rfl) rfl
        (fun _ => by rw [hpc]; exact Nat.zero_le _) nofun

/-- **One atomic step**, call or end of a wait. -/
theorem rwMove_act {a : RwAct} {w : Rwlock × RwContext} (hp : RwHere s p) (h : p.act s a = some w) :
    RwMove s p w.1 w.2 := by
  have hcounted : ∀ {pc pc' : RwPc}, p.pc = pc → pc'.counted = pc.counted →
      pc'.counted = p.pc.counted := by
    rintro pc pc' rfl h
    exact h
  cases a with
  | call f =>
    simp only [RwContext.act, Option.ite_none_right_eq_some, Option.some.injEq] at h
    obtain ⟨⟨hidle, hunlock⟩, rfl⟩ := h
    have hstart : f.start.Read ∧ f.start.counted = 0 ∧ f.start.sleeping = 0 ∧ ¬ f.start.Quiet := by
      cases f <;> exact ⟨trivial, rfl, rfl, nofun⟩
    refine rwMove_goto hp hstart.1 (fun hu => hunlock ?_) (hcounted hidle hstart.2.1)
      (by rw [hidle]; rfl) hstart.2.2.1 (fun _ => by rw [hidle]; exact Nat.zero_le _)
      fun hq => absurd hq hstart.2.2.2
    cases f <;> first | rfl | cases hu
  | step => exact rwMove_next hp h
  | returned =>
    unfold RwContext.act at h
    cases hpc : p.pc <;> simp only [hpc, reduceCtorEq, Option.some.injEq] at h
    obtain rfl := h
    exact rwMove_away hp trivial rfl (hcounted hpc rfl) (by rw [hpc]; rfl) rfl
      fun _ => by rw [hpc]; exact Nat.zero_le _
  | expired =>
    unfold RwContext.act at h
    cases hpc : p.pc with
    | wait want deadline t =>
      cases deadline <;> simp only [hpc, reduceCtorEq, Option.some.injEq] at h
      obtain rfl := h
      exact rwMove_away hp trivial rfl (hcounted hpc rfl) (by rw [hpc]; rfl) rfl
        fun _ => by rw [hpc]; exact Nat.zero_le _
    | asleep want deadline =>
      cases deadline <;> simp only [hpc, reduceCtorEq, Option.some.injEq] at h
      obtain rfl := h
      exact rwMove_away hp trivial rfl (hcounted hpc rfl) (by rw [hpc]; rfl) rfl
        fun _ => by rw [hpc]; exact Nat.zero_le _
    | _ => simp [hpc] at h

end RwMove

/-! ## The account of a lock -/

theorem readersWriter_sleepsOn {C : Type*} {x : C} {p : RwContext} :
    (readersWriter C).sleepsOn x p = some () ↔ p.pc.sleeping ≠ 0 := by
  unfold readersWriter
  cases h : p.pc <;> simp [h, RwPc.sleeping]

theorem readersWriter_wakes {C : Type*} {p q : RwContext} {all : Bool}
    (h : (readersWriter C).wakes p = some (⟨(), all⟩, q)) :
    p.pc = .wake all ∧ q = p.goto .idle := by
  unfold readersWriter at h
  cases hpc : p.pc <;> simp_all

/-- A sleeper that is released is about to try again, and holds what it held. -/
theorem RwContext.released_of_sleeping {p : RwContext} (h : p.pc.sleeping ≠ 0) :
    p.released.pc.trying = 1 ∧ p.released.pc.sleeping = 0 ∧ p.released.pc.waking = 0 ∧
      p.pc.waking = 0 ∧ p.released.pc.counted = p.pc.counted ∧ p.released.reads = p.reads ∧
      p.released.writers = p.writers ∧ p.released.Ok ∧ ¬ p.released.pc.Quiet := by
  cases hpc : p.pc with
  | asleep want deadline =>
    rw [RwContext.released, hpc]
    exact ⟨rfl, rfl, rfl, rfl, rfl, rfl, rfl, ⟨trivial, nofun⟩, nofun⟩
  | _ => exact absurd (by rw [hpc]; rfl) h

variable {C : Type*} [Fintype C]

/-- The account of a lock. A sleeper sleeps on a held lock, or a wake is on its way, or a context
that is about to try; and while one sleeps, an unlock that saw no waiters has a mark before it. -/
structure RwInv (s : RwState C) : Prop where
  ok : ∀ c, (s.at_ c).Ok
  counted : s.shared.waiters = s.total fun p => p.pc.counted
  held : (low s.shared.lock = 2 ^ 31 - 1 ∧ s.total RwContext.writers = 1 ∧
      s.total RwContext.reads = 0) ∨
    (low s.shared.lock < 2 ^ 31 - 1 ∧ s.total RwContext.writers = 0 ∧
      s.total RwContext.reads = low s.shared.lock)
  free : low s.shared.lock = 0 → s.shared.lock = 0
  sleep : 0 < (s.total fun p => p.pc.sleeping) → s.shared.lock = 0 →
    0 < (s.total fun p => p.pc.waking) ∨ 0 < s.total fun p => p.pc.trying
  quiet : 0 < (s.total fun p => p.pc.sleeping) → ∀ c, (s.at_ c).pc.Quiet → s.shared.lock.msb = true

namespace RwInv

variable {s t : RwState C}

theorem start : RwInv (RwState.start : RwState C) := by
  have hzero : ∀ f : RwContext → ℕ, f ⟨.idle, 0, false⟩ = 0 →
      (RwState.start : RwState C).total f = 0 := fun f hf => Parked.total_eq_zero.mpr fun _ => hf
  have hsleeping := hzero (fun p => p.pc.sleeping) rfl
  have hlow : low (RwState.start : RwState C).shared.lock = 0 := eq_zero_iff.mp rfl |>.1
  refine ⟨fun _ => ⟨trivial, nofun⟩, (hzero _ rfl).symm,
    Or.inr ⟨by omega, hzero RwContext.writers rfl, (hzero RwContext.reads rfl).trans hlow.symm⟩,
    fun _ => rfl, fun h => absurd hsleeping h.ne', fun h => absurd hsleeping h.ne'⟩

/-- What a context finds. -/
theorem here (hi : RwInv s) (c : C) : RwHere s.shared (s.at_ c) where
  ok := hi.ok c
  counted := hi.counted ▸ Parked.le_total (f := fun p : RwContext => p.pc.counted) c
  full := fun hfull => by
    have hle := Parked.le_total (s := s) (f := RwContext.reads) c
    rcases hi.held with ⟨-, -, hreads⟩ | ⟨hlt, -⟩ <;> omega
  room := fun hroom => by
    have hle := Parked.le_total (s := s) (f := RwContext.reads) c
    have hle' := Parked.le_total (s := s) (f := RwContext.writers) c
    rcases hi.held with ⟨hfull, -⟩ | ⟨-, hwriters, hreads⟩
    · exact absurd hfull hroom
    · exact ⟨by omega, by omega⟩
  free := hi.free

/-- A sleeper is counted. -/
theorem sleeping_le (hi : RwInv s) : (s.total fun p => p.pc.sleeping) ≤ s.shared.waiters := by
  rw [hi.counted]
  exact Finset.sum_le_sum fun c _ => (s.at_ c).pc.sleeping_le_counted

variable [DecidableEq C] {c : C}

/-- **An act of one context** keeps the account. -/
theorem put (hi : RwInv s) {w : Rwlock × RwContext} (hm : RwMove s.shared (s.at_ c) w.1 w.2) :
    RwInv (s.put c w) := by
  have hcounted := s.total_put (fun p => p.pc.counted) c w
  have hsleeping := s.total_put (fun p => p.pc.sleeping) c w
  have hwaking := s.total_put (fun p => p.pc.waking) c w
  have htrying := s.total_put (fun p => p.pc.trying) c w
  have hreads := s.total_put RwContext.reads c w
  have hwriters := s.total_put RwContext.writers c w
  have hawake := hm.awake
  have hroom := (hi.here c).room
  -- what is held moves with the word
  have hheld : (low w.1.lock = 2 ^ 31 - 1 ∧ (s.put c w).total RwContext.writers = 1 ∧
      (s.put c w).total RwContext.reads = 0) ∨
    (low w.1.lock < 2 ^ 31 - 1 ∧ (s.put c w).total RwContext.writers = 0 ∧
      (s.put c w).total RwContext.reads = low w.1.lock) := by
    rcases hi.held with ⟨h₁, h₂, h₃⟩ | ⟨h₁, h₂, h₃⟩ <;>
      rcases hm.held with ⟨e₁, e₂, e₃⟩ | ⟨e₁, e₂, e₃, e₄⟩ | ⟨e₁, e₂, e₃, e₄⟩ | ⟨e₁, e₂, e₃, e₄⟩ |
        ⟨e₁, e₂, e₃, e₄⟩ <;> omega
  have hslept : 0 < ((s.put c w).total fun p => p.pc.sleeping) →
      0 < (s.total fun p => p.pc.sleeping) ∨ w.1.lock.msb = true := by
    intro h
    by_cases hw : w.2.pc.sleeping = 0
    · exact Or.inl (by omega)
    · exact Or.inr (hm.asleep hw)
  refine ⟨fun x => ?_, ?_, hheld, hm.free, fun h hfree => ?_, fun h x hx => ?_⟩
  · by_cases hx : x = c
    · subst hx
      rw [Parked.put_at_self]
      exact hm.ok
    · rw [s.put_at_of_ne hx]
      exact hi.ok x
  · have := hm.counted
    have := hi.counted
    show w.1.waiters = _
    omega
  · replace hfree : w.1.lock = 0 := hfree
    rcases hslept h with hs | hmark
    · rcases hm.sleep hfree with ⟨hzero, hle⟩ | hwake | ⟨hq, hno⟩
      · rcases hi.sleep hs hzero with hold | hold
        · exact Or.inl (by omega)
        · exact Or.inr (by omega)
      · exact Or.inl (by omega)
      · exact absurd ((hi.quiet hs c hq).symm.trans hno) (by decide)
    · rw [hfree] at hmark
      exact absurd hmark (by decide)
  · show w.1.lock.msb = true
    rcases hslept h with hs | hmark
    · by_cases hxc : x = c
      · subst hxc
        rw [Parked.put_at_self] at hx
        have := hm.quiet hx
        have := hi.sleeping_le
        omega
      · rw [s.put_at_of_ne hxc] at hx
        rcases hm.mark (hi.quiet hs x hx) with hmark | hfree
        · exact hmark
        · -- the one that freed the lock was the only one to hold it
          exfalso
          have hzero : low w.1.lock = 0 := (eq_zero_iff.mp hfree).1
          have hholds := (hi.ok x).unlocking (by obtain ⟨val, hval, -⟩ := hx; rw [hval]; rfl)
          have hx₁ := Parked.le_total (s := s.put c w) (f := RwContext.reads) x
          have hx₂ := Parked.le_total (s := s.put c w) (f := RwContext.writers) x
          rw [s.put_at_of_ne hxc] at hx₁ hx₂
          rcases hholds with hr | hw
          · omega
          · have : (s.at_ x).writers = 1 := by rw [RwContext.writers, hw]; rfl
            omega
    · exact hmark

/-- The context `c` makes its wake, and whoever it released is about to try. -/
theorem wake (hi : RwInv s) {u : RwState C} {all : Bool} (hc : (s.at_ c).pc = .wake all)
    (hshared : u.shared = s.shared) (hu : ∀ x, u.at_ x = s.at_ x ∨
      (s.at_ x).pc.sleeping ≠ 0 ∧ u.at_ x = (s.at_ x).released)
    (hsome : 0 < (u.total fun p => p.pc.sleeping) → 0 < u.total fun p => p.pc.trying) :
    RwInv (u.goto c ((s.at_ c).goto .idle)) := by
  -- the context itself was not asleep
  have hcu : u.at_ c = s.at_ c := by
    rcases hu c with h | ⟨h, -⟩
    · exact h
    · rw [hc] at h
      exact absurd rfl h
  have hsame : ∀ f : RwContext → ℕ, (∀ x, (s.at_ x).pc.sleeping ≠ 0 →
      f (s.at_ x).released = f (s.at_ x)) → f ((s.at_ c).goto .idle) = f (s.at_ c) →
      (u.goto c ((s.at_ c).goto .idle)).total f = s.total f := by
    intro f hf hfc
    have hgoto := u.total_goto f c ((s.at_ c).goto .idle)
    have hrest : u.total f = s.total f := by
      refine Parked.total_congr fun x => ?_
      rcases hu x with h | ⟨h, h'⟩
      · rw [h]
      · rw [h', hf x h]
    rw [hcu, hfc] at hgoto
    omega
  have hplace : ∀ x, (u.goto c ((s.at_ c).goto .idle)).at_ x = (s.at_ c).goto .idle ∨
      u.at_ x = (u.goto c ((s.at_ c).goto .idle)).at_ x := by
    intro x
    by_cases hx : x = c
    · subst hx
      exact Or.inl (Parked.goto_at_self ..)
    · exact Or.inr (u.goto_at_of_ne hx _).symm
  refine ⟨fun x => ?_, ?_, ?_, ?_, fun h hfree => Or.inr ?_, fun h x hx => ?_⟩
  · rcases hplace x with h | h
    · rw [h]
      exact ⟨trivial, nofun⟩
    · rw [← h]
      rcases hu x with h | ⟨h, h'⟩
      · rw [h]
        exact hi.ok x
      · rw [h']
        exact (RwContext.released_of_sleeping h).2.2.2.2.2.2.2.1
  · rw [Parked.goto_shared, hshared, hi.counted, hsame (fun p => p.pc.counted)]
    · exact fun x hx => (RwContext.released_of_sleeping hx).2.2.2.2.1
    · show RwPc.counted .idle = (s.at_ c).pc.counted
      rw [hc]
      rfl
  · rw [Parked.goto_shared, hshared, hsame RwContext.writers _ rfl, hsame RwContext.reads _ rfl]
    · exact hi.held
    · exact fun x hx => (RwContext.released_of_sleeping hx).2.2.2.2.2.1
    · exact fun x hx => (RwContext.released_of_sleeping hx).2.2.2.2.2.2.1
  · rw [Parked.goto_shared, hshared]
    exact hi.free
  · have hgoto := u.total_goto (fun p => p.pc.sleeping) c ((s.at_ c).goto .idle)
    have hgoto' := u.total_goto (fun p => p.pc.trying) c ((s.at_ c).goto .idle)
    simp only [hcu, hc] at hgoto hgoto'
    have hzero : RwPc.sleeping (.wake all) = 0 ∧ RwPc.trying (.wake all) = 0 ∧
      ((s.at_ c).goto .idle).pc.sleeping = 0 ∧ ((s.at_ c).goto .idle).pc.trying = 0 :=
        ⟨rfl, rfl, rfl, rfl⟩
    have := hsome (by omega)
    omega
  · rw [Parked.goto_shared, hshared]
    -- who is in an unlock was there before, and somebody slept then too
    have hslept : 0 < s.total fun p => p.pc.sleeping := by
      obtain ⟨y, hy⟩ := Parked.exists_of_total_pos h
      have hysleep : (s.at_ y).pc.sleeping ≠ 0 := by
        rcases hplace y with h' | h'
        · rw [h'] at hy
          exact absurd hy (Nat.lt_irrefl 0)
        · rw [← h'] at hy
          rcases hu y with h'' | ⟨h'', -⟩
          · rw [h''] at hy
            exact hy.ne'
          · exact h''
      exact lt_of_lt_of_le (Nat.pos_of_ne_zero hysleep)
        (Parked.le_total (f := fun p : RwContext => p.pc.sleeping) y)
    rcases hplace x with h' | h'
    · rw [h'] at hx
      obtain ⟨val, hval, -⟩ := hx
      cases hval
    · rw [← h'] at hx
      rcases hu x with h'' | ⟨h'', hrel⟩
      · rw [h''] at hx
        exact hi.quiet hslept x hx
      · rw [hrel] at hx
        exact absurd hx (RwContext.released_of_sleeping h'').2.2.2.2.2.2.2.2

theorem stepped (hi : RwInv s) (h : (readersWriter C).Stepped s t) : RwInv t := by
  cases h with
  | act c a h => exact hi.put (rwMove_act (hi.here c) h)
  | wakeNone c h hnone =>
    obtain ⟨hc, rfl⟩ := readersWriter_wakes h
    refine hi.wake hc rfl (fun x => Or.inl rfl) fun hs => ?_
    obtain ⟨y, hy⟩ := Parked.exists_of_total_pos hs
    exact absurd (readersWriter_sleepsOn.mpr hy.ne') (hnone y)
  | wakeOne c y h hy hne =>
    obtain ⟨hc, rfl⟩ := readersWriter_wakes h
    have hsleep := readersWriter_sleepsOn.mp hy
    refine hi.wake hc rfl (fun x => ?_) fun _ => ?_
    · by_cases hxy : x = y
      · subst hxy
        exact Or.inr ⟨hsleep, Parked.goto_at_self ..⟩
      · exact Or.inl (s.goto_at_of_ne hxy _)
    · refine lt_of_lt_of_le ?_ (Parked.le_total (f := fun p : RwContext => p.pc.trying) y)
      rw [Parked.goto_at_self]
      show 0 < (s.at_ y).released.pc.trying
      rw [(RwContext.released_of_sleeping hsleep).1]
      exact Nat.one_pos
  | wakeAll c h =>
    obtain ⟨hc, rfl⟩ := readersWriter_wakes h
    have hpc : ∀ x, (s.releaseAll (readersWriter C).sleepsOn RwContext.released ()).at_ x =
        if (s.at_ x).pc.sleeping ≠ 0 then (s.at_ x).released else s.at_ x := by
      intro x
      simp only [Parked.releaseAll, readersWriter_sleepsOn]
    refine hi.wake hc rfl (fun x => ?_) fun hs => ?_
    · change (s.releaseAll (readersWriter C).sleepsOn RwContext.released ()).at_ x = _ ∨ _ ∧
        (s.releaseAll (readersWriter C).sleepsOn RwContext.released ()).at_ x = _
      rw [hpc]
      split_ifs with hx
      · exact Or.inr ⟨hx, rfl⟩
      · exact Or.inl rfl
    · -- nobody is left asleep
      obtain ⟨y, hy⟩ := Parked.exists_of_total_pos hs
      change 0 < ((s.releaseAll (readersWriter C).sleepsOn RwContext.released ()).at_ y).pc.sleeping
        at hy
      rw [hpc] at hy
      split_ifs at hy with hx
      · rw [(RwContext.released_of_sleeping hx).2.1] at hy
        exact absurd hy (Nat.lt_irrefl 0)
      · exact absurd hy.ne' hx

end RwInv

variable [DecidableEq C]

/-- **A lock for readers and a writer excludes and wakes.** In every run a context that holds it for
writing is the only one that holds it, the word counts how often it is held for reading, and no
context sleeps on a free lock unless a wake is on its way or a context is about to try. -/
theorem rwlock_excludes_and_wakes {s : RwState C}
    (h : Reachable (readersWriter C).step RwState.start s) :
    (∀ c d, (s.at_ c).writes = true → (s.at_ d).Holds → c = d ∧ (s.at_ d).reads = 0) ∧
      ((∀ c, (s.at_ c).writes = false) → low s.shared.lock = s.total RwContext.reads) ∧
      s.shared.waiters = (s.total fun p => p.pc.counted) ∧
      ((∃ x want deadline, (s.at_ x).pc = .asleep want deadline) → s.shared.lock = 0 →
        ∃ c, (∃ all, (s.at_ c).pc = .wake all) ∨ (s.at_ c).pc.trying = 1) := by
  have hi : RwInv s := Parking.invariant RwInv.start (fun _ _ hu hv => hu.stepped hv) h
  have hwriters : ∀ c, (s.at_ c).writes = true → (s.at_ c).writers = 1 := by
    intro c hc
    rw [RwContext.writers, hc]
    rfl
  refine ⟨fun c d hc hd => ?_, fun hno => ?_, hi.counted, ?_⟩
  · have hle := Parked.le_total (s := s) (f := RwContext.writers) c
    have hle' := Parked.le_total (s := s) (f := RwContext.reads) d
    rw [hwriters c hc] at hle
    obtain ⟨-, hone, hreads⟩ := hi.held.resolve_right fun hr => by omega
    refine ⟨?_, by omega⟩
    by_contra hne
    have hboth := Parked.add_le_total (s := s) (f := RwContext.writers) hne
    rw [hwriters c hc, hwriters d (hd.resolve_left (by omega))] at hboth
    omega
  · rcases hi.held with ⟨-, hone, -⟩ | ⟨-, -, hreads⟩
    · obtain ⟨c, hc⟩ := Parked.exists_of_total_pos (s := s) (f := RwContext.writers) (by omega)
      rw [RwContext.writers, hno c] at hc
      exact absurd hc (Nat.lt_irrefl 0)
    · exact hreads.symm
  · rintro ⟨x, want, deadline, hx⟩ hfree
    have hsome : 0 < s.total fun p => p.pc.sleeping := by
      refine lt_of_lt_of_le ?_ (Parked.le_total (f := fun p : RwContext => p.pc.sleeping) x)
      rw [hx]
      exact Nat.one_pos
    rcases hi.sleep hsome hfree with hpos | hpos
    · obtain ⟨c, hc⟩ := Parked.exists_of_total_pos hpos
      refine ⟨c, Or.inl ?_⟩
      cases hpc : (s.at_ c).pc with
      | wake all => exact ⟨all, rfl⟩
      | _ => exact absurd (by rw [hpc]; rfl) hc.ne'
    · obtain ⟨c, hc⟩ := Parked.exists_of_total_pos hpos
      refine ⟨c, Or.inr (le_antisymm ?_ hc)⟩
      show (s.at_ c).pc.trying ≤ 1
      unfold RwPc.trying
      split <;> omega

/-- One context reads, the other waits to write and sleeps, and the first gives the lock back and
stands before its wake. -/
def readsBeforeWriter : List (ParkMove Bool RwAct) :=
  .act true (.call .tryrdlock) :: List.replicate 2 (.act true .step) ++
    .act false (.call (.wrlock false)) :: List.replicate 207 (.act false .step) ++
      .act true (.call .unlock) :: List.replicate 3 (.act true .step)

theorem rwlock_excludes_and_wakes_reader :
    ∃ s : RwState Bool, Reachable (readersWriter Bool).step RwState.start s ∧
      (s.at_ false).pc = .asleep .write false ∧ s.shared.lock = 0 ∧
      ((∃ x want deadline, (s.at_ x).pc = .asleep want deadline) → s.shared.lock = 0 →
        ∃ c, (∃ all, (s.at_ c).pc = .wake all) ∨ (s.at_ c).pc.trying = 1) := by
  have hrun : (run (readersWriter Bool).step RwState.start readsBeforeWriter).map
      (fun s => ((s.at_ false).pc, s.shared.lock)) = some (.asleep .write false, 0) := by
    decide +kernel
  obtain ⟨s, hs, heq⟩ := Option.map_eq_some_iff.mp hrun
  simp only [Prod.mk.injEq] at heq
  exact ⟨s, ⟨_, hs⟩, heq.1, heq.2, (rwlock_excludes_and_wakes ⟨_, hs⟩).2.2.2⟩

end OpenkalMusl
