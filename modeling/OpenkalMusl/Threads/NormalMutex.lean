import Mathlib.Data.Fintype.Pi
import Mathlib.Data.Nat.Notation

/-!
# A normal mutex

`pthread_mutex_lock`, `pthread_mutex_timedlock`, `pthread_mutex_trylock` and `pthread_mutex_unlock`
of musl on one mutex of type `PTHREAD_MUTEX_NORMAL`, as any number of contexts interleave their
atomic steps. A context without a deadline marks the word contended and sleeps; one with a deadline
counts itself in `_m_waiters` besides. An unlock wakes one sleeper where the word it takes back is
marked or the count it read before is not zero.

A futex wait sleeps only while the word holds the value expected and may return without a wake; a
wake releases one sleeper where there is one, and the environment chooses which. The count of
waiters is a natural number: it is at most the number of contexts.

## Main definitions

* `Pc`, `Pc.next`: where a context is in these functions, and its next atomic step
* `NormalMutex.step`: the contexts on one mutex
* `Local`: what one step of one context can do

## Main results

* `local_next`, `local_start`, `local_returned`, `local_expired`, `local_released`: every move of a
  context is such a step
-/

namespace OpenkalMusl

/-- The word of a mutex that is held. -/
def ebusy : BitVec 32 := 16

/-- The high bit of the word: a context may sleep on it. -/
def contendedMark : BitVec 32 := 0x80000000

/-- The word of a mutex that is held and was marked contended. -/
def contended : BitVec 32 := ebusy ||| contendedMark

/-- Where a context is. What it has read is kept with it; `woken` says that a wake released it and
it has not yet tried again. -/
inductive Pc where
  | idle
  /-- `__pthread_mutex_lock`, and `__pthread_mutex_timedlock` with or without a deadline, at the
  first compare-and-swap. -/
  | lockCas
  | timedlockCas (deadline : Bool)
  /-- The loop without a deadline. -/
  | swap (woken : Bool)
  | futexwait
  | asleep
  /-- `pthread_mutex_trylock`. -/
  | trylock
  /-- The part with a deadline: the first try, the spin, and the loop. -/
  | tryFirst
  | spin (spins : ℕ)
  | spinWaiters (spins : ℕ)
  | tryAgain (woken : Bool)
  | load
  | inc (r : BitVec 32)
  | mark (r : BitVec 32)
  | timedwait (t : BitVec 32)
  | asleepTimed
  | dec (expired woken : Bool)
  /-- `__pthread_mutex_unlock`. -/
  | unlockLoad
  | unlockSwap (waiters : ℕ)
  | wake
  deriving DecidableEq

/-- What a step writes: the word, the count, whether the context now holds the mutex, and where it
goes. -/
structure Write where
  lock : BitVec 32
  waiters : ℕ
  holds : Option Bool
  pc : Pc

namespace Pc

section

variable (lock : BitVec 32) (waiters : ℕ)

def goto (pc : Pc) : Write := ⟨lock, waiters, none, pc⟩

/-- The call returns with the mutex. -/
def take (word : BitVec 32) : Write := ⟨word, waiters, some true, .idle⟩

/-- A compare-and-swap of a free word, with `busy` where it is not free. -/
def cas (busy : Pc) : Write := if lock = 0 then take waiters ebusy else goto lock waiters busy

/-- `__pthread_mutex_trylock`, whose answer is the old word but for the mark. -/
def tryTake (busy : Pc) : Write :=
  if lock &&& ebusy = ebusy then goto lock waiters busy
  else take waiters (if lock = 0 then ebusy else lock)

/-- The next atomic step of a context that is not asleep. -/
def next : Pc → Option Write
  | .lockCas => some (cas lock waiters (.timedlockCas false))
  | .timedlockCas deadline => some (cas lock waiters (if deadline then .tryFirst else .swap false))
  | .swap _ =>
    some (if lock = 0 then take waiters contended else ⟨contended, waiters, none, .futexwait⟩)
  | .futexwait => some (goto lock waiters (if lock = contended then .asleep else .swap false))
  | .trylock => some (tryTake lock waiters .idle)
  | .tryFirst => some (tryTake lock waiters (.spin 100))
  | .spin 0 => some (goto lock waiters (.tryAgain false))
  | .spin (n + 1) =>
    some (goto lock waiters (if lock = 0 then .tryAgain false else .spinWaiters n))
  | .spinWaiters n => some (goto lock waiters (if waiters ≠ 0 then .tryAgain false else .spin n))
  | .tryAgain _ => some (tryTake lock waiters .load)
  | .load =>
    -- a word that carries no owner and is not zero is waited for
    some (goto lock waiters
      (if lock &&& 0x3fffffff = 0 ∧ lock = 0 then .tryAgain false else .inc lock))
  | .inc r => some ⟨lock, waiters + 1, none, .mark r⟩
  | .mark r =>
    let t := r ||| contendedMark
    some ⟨if lock = r then t else lock, waiters, none, .timedwait t⟩
  | .timedwait t => some (goto lock waiters (if lock = t then .asleepTimed else .dec false false))
  | .dec expired woken =>
    some ⟨lock, waiters - 1, none, if expired then .idle else .tryAgain woken⟩
  | .unlockLoad => some (goto lock waiters (.unlockSwap waiters))
  | .unlockSwap w => some ⟨0, waiters, some false, if w ≠ 0 ∨ lock.msb then .wake else .idle⟩
  | .idle | .asleep | .asleepTimed | .wake => none

end

/-- A wait that returns without a wake. -/
def returned : Pc → Option Pc
  | .asleep => some (.swap false)
  | .asleepTimed => some (.dec false false)
  | _ => none

/-- A bounded wait whose deadline passes, or had passed. -/
def expired : Pc → Option Pc
  | .timedwait _ | .asleepTimed => some (.dec true false)
  | _ => none

/-- Where a wake leaves a sleeper. -/
def released : Pc → Option Pc
  | .asleep => some (.swap true)
  | .asleepTimed => some (.dec false true)
  | _ => none

end Pc

inductive MutexCall where
  | lock | timedlock | trylock | unlock
  deriving DecidableEq

def MutexCall.start : MutexCall → Pc
  | .lock => .lockCas
  | .timedlock => .timedlockCas true
  | .trylock => .trylock
  | .unlock => .unlockLoad

/-- The mutex, and the contexts upon it. -/
structure NormalMutex (C : Type*) where
  /-- `_m_lock` and `_m_waiters`. -/
  lock : BitVec 32
  waiters : ℕ
  holds : C → Bool
  pc : C → Pc

inductive MutexLabel (C : Type*) where
  | call (c : C) (f : MutexCall)
  | step (c : C)
  /-- A wait returns without a wake, or because its deadline passed. -/
  | returned (c : C)
  | expired (c : C)
  /-- The wake of `c` releases `x`, or finds nobody asleep. -/
  | wake (c : C) (x : Option C)

namespace NormalMutex

variable {C : Type*} [DecidableEq C]

def write (s : NormalMutex C) (c : C) (w : Write) : NormalMutex C where
  lock := w.lock
  waiters := w.waiters
  holds := match w.holds with
    | some h => Function.update s.holds c h
    | none => s.holds
  pc := Function.update s.pc c w.pc

def goto (s : NormalMutex C) (c : C) (pc : Pc) : NormalMutex C :=
  s.write c (Pc.goto s.lock s.waiters pc)

/-- A mutex nobody has used. -/
def start : NormalMutex C where
  lock := 0
  waiters := 0
  holds := fun _ => false
  pc := fun _ => .idle

variable [Fintype C]

/-- One step of one context. Only a context that holds the mutex unlocks it. -/
def step (s : NormalMutex C) : MutexLabel C → Option (NormalMutex C)
  | .call c f =>
    if s.pc c = .idle ∧ (f = .unlock → s.holds c = true) then some (s.goto c f.start) else none
  | .step c => ((s.pc c).next s.lock s.waiters).map (s.write c)
  | .returned c => (s.pc c).returned.map (s.goto c)
  | .expired c => (s.pc c).expired.map (s.goto c)
  | .wake c none =>
    if s.pc c = .wake ∧ ∀ x, (s.pc x).released = none then some (s.goto c .idle) else none
  | .wake c (some x) =>
    if s.pc c = .wake then (s.pc x).released.map fun pc => (s.goto x pc).goto c .idle else none

end NormalMutex

/-! ## What one step can do -/

theorem ebusy_ne_zero : ebusy ≠ 0 := by decide

theorem contended_ne_zero : contended ≠ 0 := by decide

theorem contended_ne_ebusy : contended ≠ ebusy := by decide

/-- The words of a mutex. -/
def IsWord (lock : BitVec 32) : Prop := lock = 0 ∨ lock = ebusy ∨ lock = contended

namespace Pc

/-- Between taking an unlock up and its swap. -/
def unlocking : Pc → Bool
  | .unlockLoad | .unlockSwap _ => true
  | _ => false

/-- Between the increment of the count and its decrement. -/
def counted : Pc → Bool
  | .mark _ | .timedwait _ | .asleepTimed | .dec _ _ => true
  | _ => false

/-- Released by a wake, and not yet tried again. -/
def woken : Pc → Bool
  | .swap w | .tryAgain w | .dec false w => w
  | _ => false

/-- What a context with a deadline has read is a held word, and what it expects is marked. -/
def Ok : Pc → Prop
  | .inc r | .mark r => r = ebusy ∨ r = contended
  | .timedwait t => t = contended
  | _ => True

/-- Neither in an unlock, nor asleep, nor on the way there with a word that was read. -/
def quiet : Pc → Bool
  | .inc _ | .mark _ | .timedwait _ | .asleep | .asleepTimed | .unlockLoad | .unlockSwap _ => false
  | _ => true

theorem quiet_spec {pc : Pc} (h : pc.quiet = true) :
    pc.Ok ∧ pc.unlocking = false ∧ pc ≠ .asleep ∧ pc ≠ .asleepTimed := by
  cases pc <;> first | (cases h; done) | exact ⟨trivial, rfl, nofun, nofun⟩

end Pc

/-- What a step of a context at `pc`, which holds the mutex or not, writes. -/
structure Local (lock : BitVec 32) (waiters : ℕ) (holds : Bool) (pc : Pc) (w : Write) : Prop where
  word : IsWord w.lock
  ok : w.pc.Ok
  /-- It takes a free mutex, gives one back, or leaves it free or held; what it gives back unmarked
  and uncounted it gives back without a wake. -/
  hold : (w.holds = some true ∧ lock = 0 ∧ w.lock ≠ 0) ∨
    (w.holds = some false ∧ w.lock = 0 ∧ pc.unlocking = true ∧
      (w.pc = .wake ∨ lock = ebusy ∧ pc = .unlockSwap 0)) ∨
    (w.holds = none ∧ (w.lock = lock ∨ lock ≠ 0 ∧ w.lock = contended))
  unlocking : w.pc.unlocking = true → holds = true ∧ w.holds = none
  count : w.waiters + (if pc.counted then 1 else 0) = waiters + if w.pc.counted then 1 else 0
  load : w.pc = .unlockSwap 0 → waiters = 0
  asleep : w.pc = .asleep ∨ w.pc = .asleepTimed → w.lock = contended
  woken : pc.woken = true → w.lock = 0 → w.pc.woken = true
  wokenUntimed : pc = .swap true → w.lock = contended

section Local

variable {lock : BitVec 32} {waiters : ℕ} {holds : Bool} {pc : Pc}

/-- A context that only moves, between places of one count, and into neither an unlock, a sleep nor
a wait for a word. -/
theorem local_goto {pc' : Pc} (hlock : IsWord lock) (hok : pc'.Ok)
    (hunlock : pc'.unlocking = true → holds = true) (hcount : pc'.counted = pc.counted)
    (hload : pc' = .unlockSwap 0 → waiters = 0)
    (hasleep : pc' = .asleep ∨ pc' = .asleepTimed → lock = contended)
    (hwoken : pc.woken = true → lock = 0 → pc'.woken = true)
    (huntimed : pc ≠ .swap true) :
    Local lock waiters holds pc (Pc.goto lock waiters pc') where
  word := hlock
  ok := hok
  hold := Or.inr (Or.inr ⟨rfl, Or.inl rfl⟩)
  unlocking := fun h => ⟨hunlock h, rfl⟩
  count := by rw [Pc.goto, hcount]
  load := hload
  asleep := hasleep
  woken := hwoken
  wokenUntimed := fun h => absurd h huntimed

/-- A move to a quiet place by a context that no wake has released. -/
theorem local_quiet {pc' : Pc} (hlock : IsWord lock) (hto : pc'.quiet = true)
    (hfrom : pc.woken = false) (hcount : pc'.counted = pc.counted) :
    Local lock waiters holds pc (Pc.goto lock waiters pc') := by
  obtain ⟨hok, hunlock, hasleep, htimed⟩ := Pc.quiet_spec hto
  refine local_goto hlock hok (fun h => ?_) hcount ?_ ?_ (fun h => ?_) ?_
  · rw [hunlock] at h
    cases h
  · rintro rfl
    cases hunlock
  · rintro (h | h)
    · exact absurd h hasleep
    · exact absurd h htimed
  · rw [hfrom] at h
    cases h
  · rintro rfl
    cases hfrom

theorem ne_zero_of_held {word : BitVec 32} (h : word = ebusy ∨ word = contended) : word ≠ 0 := by
  rcases h with rfl | rfl
  · exact ebusy_ne_zero
  · exact contended_ne_zero

theorem local_take {word : BitVec 32} (hlock : lock = 0) (hword : word = ebusy ∨ word = contended)
    (hcount : pc.counted = false) (huntimed : pc = .swap true → word = contended) :
    Local lock waiters holds pc (Pc.take waiters word) where
  word := Or.inr hword
  ok := trivial
  hold := Or.inl ⟨rfl, hlock, ne_zero_of_held hword⟩
  unlocking := fun h => by simp [Pc.take, Pc.unlocking] at h
  count := by
    rw [hcount]
    rfl
  load := fun h => by simp [Pc.take] at h
  asleep := fun h => by simp [Pc.take] at h
  woken := fun _ h => absurd h (ne_zero_of_held hword)
  wokenUntimed := huntimed

theorem local_cas {busy : Pc} (hcount : pc.counted = false)
    (huntimed : pc ≠ .swap true)
    (hbusy : lock ≠ 0 → Local lock waiters holds pc (Pc.goto lock waiters busy)) :
    Local lock waiters holds pc (Pc.cas lock waiters busy) := by
  unfold Pc.cas
  split_ifs with h
  · exact local_take h (Or.inl rfl) hcount fun he => absurd he huntimed
  · exact hbusy h

theorem local_tryTake {busy : Pc} (hlock : IsWord lock) (hcount : pc.counted = false)
    (huntimed : pc ≠ .swap true)
    (hbusy : lock ≠ 0 → Local lock waiters holds pc (Pc.goto lock waiters busy)) :
    Local lock waiters holds pc (Pc.tryTake lock waiters busy) := by
  unfold Pc.tryTake
  rcases hlock with rfl | rfl | rfl
  · rw [if_neg (by decide), if_pos rfl]
    exact local_take rfl (Or.inl rfl) hcount fun he => absurd he huntimed
  · rw [if_pos (by decide)]
    exact hbusy (by decide)
  · rw [if_pos (by decide)]
    exact hbusy (by decide)

theorem local_release {n : ℕ} {pc' : Pc}
    (hpc : pc' = .wake ∨ pc' = .idle ∧ lock = ebusy ∧ n = 0) :
    Local lock waiters holds (.unlockSwap n) ⟨0, waiters, some false, pc'⟩ := by
  have hcases : pc' = .wake ∨ pc' = .idle := hpc.imp_right And.left
  exact {
    word := Or.inl rfl
    ok := by rcases hcases with rfl | rfl <;> trivial
    hold := Or.inr (Or.inl ⟨rfl, rfl, rfl, hpc.imp_right fun h => ⟨h.2.1, by rw [h.2.2]⟩⟩)
    unlocking := by rcases hcases with rfl | rfl <;> exact nofun
    count := by rcases hcases with rfl | rfl <;> rfl
    load := by rcases hcases with rfl | rfl <;> exact nofun
    asleep := by rcases hcases with rfl | rfl <;> exact nofun
    woken := nofun
    wokenUntimed := nofun }

/-- **One atomic step** of a context. -/
theorem local_next {w : Write} (h : pc.next lock waiters = some w) (hlock : IsWord lock)
    (hok : pc.Ok) (hunlock : pc.unlocking = true → holds = true ∧ lock ≠ 0)
    (hcount : pc.counted = true → 0 < waiters) : Local lock waiters holds pc w := by
  cases pc with
  | idle => cases h
  | asleep => cases h
  | asleepTimed => cases h
  | wake => cases h
  | lockCas =>
    obtain rfl := Option.some.inj h
    refine local_cas rfl nofun fun _ => ?_
    exact local_quiet hlock rfl rfl rfl
  | timedlockCas deadline =>
    obtain rfl := Option.some.inj h
    refine local_cas rfl nofun fun _ => ?_
    cases deadline
    · exact local_quiet hlock rfl rfl rfl
    · exact local_quiet hlock rfl rfl rfl
  | swap woken =>
    obtain rfl := Option.some.inj h
    -- a context without a deadline takes the mutex marked, as it cannot know who else waits
    split_ifs with hfree
    · exact local_take hfree (Or.inr rfl) rfl fun _ => rfl
    · exact {
        word := Or.inr (Or.inr rfl)
        ok := trivial
        hold := Or.inr (Or.inr ⟨rfl, Or.inr ⟨hfree, rfl⟩⟩)
        unlocking := nofun
        count := rfl
        load := nofun
        asleep := fun _ => rfl
        woken := fun _ h₀ => absurd h₀ contended_ne_zero
        wokenUntimed := fun _ => rfl }
  | futexwait =>
    obtain rfl := Option.some.inj h
    split_ifs with hmark
    · exact local_goto hlock trivial nofun rfl nofun (fun _ => hmark) nofun nofun
    · exact local_quiet hlock rfl rfl rfl
  | trylock =>
    obtain rfl := Option.some.inj h
    refine local_tryTake hlock rfl nofun fun _ => ?_
    exact local_quiet hlock rfl rfl rfl
  | tryFirst =>
    obtain rfl := Option.some.inj h
    refine local_tryTake hlock rfl nofun fun _ => ?_
    exact local_quiet hlock rfl rfl rfl
  | spin n =>
    cases n with
    | zero =>
      obtain rfl := Option.some.inj h
      exact local_quiet hlock rfl rfl rfl
    | succ n =>
      obtain rfl := Option.some.inj h
      split_ifs
      · exact local_quiet hlock rfl rfl rfl
      · exact local_quiet hlock rfl rfl rfl
  | spinWaiters n =>
    obtain rfl := Option.some.inj h
    split_ifs
    · exact local_quiet hlock rfl rfl rfl
    · exact local_quiet hlock rfl rfl rfl
  | tryAgain woken =>
    obtain rfl := Option.some.inj h
    -- a woken context that finds the mutex held has tried again
    refine local_tryTake hlock rfl nofun fun hheld => ?_
    exact local_goto hlock trivial nofun rfl nofun nofun (fun _ h₀ => absurd h₀ hheld) nofun
  | load =>
    obtain rfl := Option.some.inj h
    split_ifs with hzero
    · exact local_quiet hlock rfl rfl rfl
    · refine local_goto hlock ?_ nofun rfl nofun nofun nofun nofun
      -- the word it read is a held one, which the `msb` and zero tests tell
      refine hlock.resolve_left fun h₀ => hzero ?_
      rw [h₀]
      exact ⟨by decide, rfl⟩
  | inc r =>
    obtain rfl := Option.some.inj h
    exact {
      word := hlock
      ok := hok
      hold := Or.inr (Or.inr ⟨rfl, Or.inl rfl⟩)
      unlocking := nofun
      count := rfl
      load := nofun
      asleep := nofun
      woken := nofun
      wokenUntimed := nofun }
  | mark r =>
    obtain rfl := Option.some.inj h
    -- the mark is put upon a held word, which is marked then either way
    have ht : r ||| contendedMark = contended := by
      rcases hok with rfl | rfl
      · rfl
      · decide
    simp only [ht]
    exact {
      word := by
        split_ifs
        · exact Or.inr (Or.inr rfl)
        · exact hlock
      ok := rfl
      hold := by
        refine Or.inr (Or.inr ⟨rfl, ?_⟩)
        split_ifs with hr
        · rw [hr]
          exact Or.inr ⟨ne_zero_of_held hok, rfl⟩
        · exact Or.inl rfl
      unlocking := nofun
      count := rfl
      load := nofun
      asleep := nofun
      woken := nofun
      wokenUntimed := nofun }
  | timedwait t =>
    obtain rfl := Option.some.inj h
    obtain rfl : t = contended := hok
    split_ifs with hmark
    · exact local_goto hlock trivial nofun rfl nofun (fun _ => hmark) nofun nofun
    · exact local_quiet hlock rfl rfl rfl
  | dec expired woken =>
    obtain rfl := Option.some.inj h
    have hpos := hcount rfl
    cases expired
    · exact {
        word := hlock
        ok := trivial
        hold := Or.inr (Or.inr ⟨rfl, Or.inl rfl⟩)
        unlocking := nofun
        count := Nat.sub_add_cancel hpos
        load := nofun
        asleep := nofun
        woken := fun hw _ => hw
        wokenUntimed := nofun }
    · exact {
        word := hlock
        ok := trivial
        hold := Or.inr (Or.inr ⟨rfl, Or.inl rfl⟩)
        unlocking := nofun
        count := Nat.sub_add_cancel hpos
        load := nofun
        asleep := nofun
        woken := nofun
        wokenUntimed := nofun }
  | unlockLoad =>
    obtain rfl := Option.some.inj h
    refine local_goto hlock trivial (fun _ => (hunlock rfl).1) rfl ?_ nofun nofun nofun
    intro hw
    simpa using hw
  | unlockSwap n =>
    obtain rfl := Option.some.inj h
    refine local_release ?_
    split_ifs with hw
    · exact Or.inl rfl
    · -- nobody counted and no mark: the word was plain `EBUSY`
      obtain ⟨hn, hmsb⟩ := not_or.mp hw
      obtain rfl : n = 0 := not_not.mp hn
      refine Or.inr ⟨rfl, ?_, rfl⟩
      rcases hlock with h₀ | h₁ | h₂
      · exact absurd h₀ (hunlock rfl).2
      · exact h₁
      · rw [h₂] at hmsb
        exact absurd (by decide) hmsb

theorem local_start (hlock : IsWord lock) {f : MutexCall} (h : f = .unlock → holds = true) :
    Local lock waiters holds .idle (Pc.goto lock waiters f.start) := by
  cases f with
  | lock => exact local_quiet hlock rfl rfl rfl
  | timedlock => exact local_quiet hlock rfl rfl rfl
  | trylock => exact local_quiet hlock rfl rfl rfl
  | unlock => exact local_goto hlock trivial (fun _ => h rfl) rfl nofun nofun nofun nofun

theorem local_returned (hlock : IsWord lock) {pc' : Pc} (h : pc.returned = some pc') :
    Local lock waiters holds pc (Pc.goto lock waiters pc') := by
  cases pc with
  | asleep =>
    obtain rfl := Option.some.inj h
    exact local_quiet hlock rfl rfl rfl
  | asleepTimed =>
    obtain rfl := Option.some.inj h
    exact local_quiet hlock rfl rfl rfl
  | _ => cases h

theorem local_expired (hlock : IsWord lock) {pc' : Pc} (h : pc.expired = some pc') :
    Local lock waiters holds pc (Pc.goto lock waiters pc') := by
  cases pc with
  | timedwait t =>
    obtain rfl := Option.some.inj h
    exact local_quiet hlock rfl rfl rfl
  | asleepTimed =>
    obtain rfl := Option.some.inj h
    exact local_quiet hlock rfl rfl rfl
  | _ => cases h

theorem local_released (hlock : IsWord lock) {pc' : Pc} (h : pc.released = some pc') :
    Local lock waiters holds pc (Pc.goto lock waiters pc') := by
  cases pc with
  | asleep =>
    obtain rfl := Option.some.inj h
    exact local_quiet hlock rfl rfl rfl
  | asleepTimed =>
    obtain rfl := Option.some.inj h
    exact local_quiet hlock rfl rfl rfl
  | _ => cases h

theorem local_wake (hlock : IsWord lock) :
    Local lock waiters holds .wake (Pc.goto lock waiters .idle) :=
  local_quiet hlock rfl rfl rfl

end Local

end OpenkalMusl
