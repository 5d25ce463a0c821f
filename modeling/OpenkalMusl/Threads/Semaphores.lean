import OpenkalMusl.Bits.Marked
import OpenkalMusl.Transition.Parking

/-!
# Semaphores

`sem_post`, `sem_trywait` and `sem_timedwait` of musl on one semaphore (`sem_wait` is the latter
without a deadline), as any number of contexts interleave their atomic steps. The word holds the
value and, in its high bit, a mark that a context may sleep on it. A context sleeps only while the
value is zero and the mark is on. A post of a marked semaphore keeps the mark and wakes one sleeper
where it counted several waiters; where it counted at most one, it takes the mark off and wakes
all.

A futex wait sleeps only while the word holds the value expected and may return without a wake. The
count of waiters is a natural number: it is at most the number of contexts.

## Main definitions

* `SemPc`, `SemPc.next`: where a context is in these functions, and its next atomic step
* `semaphore`: the protocol, and `SemState` its contexts on one semaphore
* `SemPc.trying`, `SemPc.wakingOne`, `SemPc.wakingAll`: what may still reach a sleeper

## Main results

* `semMove_act`: what one atomic step of one context can do
* `semaphore_conserves`: what is taken was posted, the count of waiters is exact, and no sleeper is
  left to a value that nobody is on the way to
-/

namespace OpenkalMusl

open Transition Marked

/-- A semaphore, and how often it was posted and taken, which no step reads. -/
structure Sem where
  /-- `__val[0]` and `__val[1]`. -/
  val : BitVec 32
  waiters : ℕ
  posts : ℕ
  takes : ℕ

/-- What `sem_trywait` is called for: by itself, at the start of `sem_timedwait`, or in its loop. -/
inductive SemTry where
  | alone
  | first (deadline : Bool)
  | loop (deadline : Bool)
  deriving DecidableEq

/-- Where a context is. What it has read is kept with it. -/
inductive SemPc where
  | idle
  /-- `sem_trywait`: the load, and the compare-and-swap. -/
  | tryLoad (how : SemTry)
  | tryCas (how : SemTry) (val : BitVec 32)
  /-- `sem_timedwait`: the spin, and the loop. -/
  | spin (deadline : Bool) (spins : ℕ)
  | spinWaiters (deadline : Bool) (spins : ℕ)
  | inc (deadline : Bool)
  | mark (deadline : Bool)
  | wait (deadline : Bool)
  | asleep (deadline : Bool)
  | dec (deadline ended : Bool)
  /-- `sem_post`. -/
  | postVal
  | postWaiters (val : BitVec 32)
  | postCas (val : BitVec 32) (waiters : ℕ)
  | wake (all : Bool)
  deriving DecidableEq

inductive SemCall where
  | post
  | trywait
  | wait (deadline : Bool)
  deriving DecidableEq

def SemCall.start : SemCall → SemPc
  | .post => .postVal
  | .trywait => .tryLoad .alone
  | .wait deadline => .tryLoad (.first deadline)

inductive SemAct where
  | call (f : SemCall)
  | step
  /-- A wait returns without a wake, because its deadline passed, or because the context was
  cancelled before it slept. -/
  | returned
  | expired
  | cancelled
  deriving DecidableEq

namespace SemPc

/-- Where `sem_trywait` leaves a context that it answers `EAGAIN`. -/
def refused : SemTry → SemPc
  | .alone => .idle
  | .first deadline => .spin deadline 100
  | .loop deadline => .inc deadline

/-- The next atomic step of a context that neither sleeps nor wakes. -/
def next (s : Sem) : SemPc → Option (Sem × SemPc)
  | .tryLoad how => some (s, if s.val &&& bits ≠ 0 then .tryCas how s.val else refused how)
  | .tryCas how val =>
    some (if s.val = val then ({ s with val := val - 1, takes := s.takes + 1 }, .idle)
      else (s, .tryLoad how))
  | .spin deadline 0 => some (s, .tryLoad (.loop deadline))
  | .spin deadline (n + 1) =>
    some (s, if s.val &&& bits ≠ 0 then .tryLoad (.loop deadline) else .spinWaiters deadline n)
  | .spinWaiters deadline n =>
    some (s, if s.waiters ≠ 0 then .tryLoad (.loop deadline) else .spin deadline n)
  | .inc deadline => some ({ s with waiters := s.waiters + 1 }, .mark deadline)
  | .mark deadline =>
    some ({ s with val := if s.val = 0 then Marked.mark else s.val }, .wait deadline)
  | .wait deadline =>
    some (s, if s.val = Marked.mark then .asleep deadline else .dec deadline false)
  | .dec deadline ended =>
    some ({ s with waiters := s.waiters - 1 },
      if ended then .idle else .tryLoad (.loop deadline))
  | .postVal => some (s, .postWaiters s.val)
  | .postWaiters val =>
    -- a value that is full is answered `EOVERFLOW`
    some (s, if val &&& bits = bits then .idle else .postCas val s.waiters)
  | .postCas val waiters =>
    let new := if waiters ≤ 1 then (val + 1) &&& ~~~Marked.mark else val + 1
    some (if s.val = val then
        ({ s with val := new, posts := s.posts + 1 },
          if val.msb then .wake (decide (waiters ≤ 1)) else .idle)
      else (s, .postVal))
  | .idle | .asleep _ | .wake _ => none

/-- An atomic step, a call, or the end of a wait. -/
def act (s : Sem) (pc : SemPc) : SemAct → Option (Sem × SemPc)
  | .call f => if pc = .idle then some (s, f.start) else none
  | .step => pc.next s
  | .returned =>
    match pc with
    | .asleep deadline => some (s, .dec deadline false)
    | _ => none
  | .expired =>
    match pc with
    | .wait true | .asleep true => some (s, .dec true true)
    | _ => none
  | .cancelled =>
    match pc with
    | .wait deadline => some (s, .dec deadline true)
    | _ => none

def released : SemPc → SemPc
  | .asleep deadline => .dec deadline false
  | pc => pc

end SemPc

/-- The protocol of a semaphore. -/
def semaphore (C : Type*) : Parking C Sem SemPc SemAct Unit where
  act := fun _ => SemPc.act
  sleepsOn := fun _ pc => match pc with
    | .asleep _ => some ()
    | _ => none
  released := SemPc.released
  wakes := fun pc => match pc with
    | .wake all => some (⟨(), all⟩, .idle)
    | _ => none

/-- Contexts on one semaphore. -/
abbrev SemState (C : Type*) := Parked C Sem SemPc

/-- `sem_init` with a value of at most `SEM_VALUE_MAX`. -/
def SemState.start {C : Type*} (value : BitVec 32) : SemState C :=
  ⟨⟨value, 0, 0, 0⟩, fun _ => .idle⟩

/-! ## What one step can do -/

namespace SemPc

/-- Asleep. -/
def sleeping : SemPc → ℕ
  | .asleep _ => 1
  | _ => 0

/-- About to try the semaphore once more before it would sleep. -/
def trying : SemPc → ℕ
  | .dec _ false | .tryLoad (.loop _) | .tryCas (.loop _) _ => 1
  | _ => 0

/-- About to wake one sleeper, or all. -/
def wakingOne : SemPc → ℕ
  | .wake false => 1
  | _ => 0

def wakingAll : SemPc → ℕ
  | .wake true => 1
  | _ => 0

/-- Between the increment of the count and its decrement. -/
def counted : SemPc → ℕ
  | .mark _ | .wait _ | .asleep _ | .dec _ _ => 1
  | _ => 0

/-- What `sem_trywait` read is not zero, and what `sem_post` read is not full. -/
def Read : SemPc → Prop
  | .tryCas _ val => low val ≠ 0
  | .postCas val _ => low val < 2 ^ 31 - 1
  | _ => True

end SemPc

open SemPc

/-- What an atomic step of a context at `pc` does: it leaves the context at `pc'`. -/
structure SemMove (s : Sem) (pc : SemPc) (s' : Sem) (pc' : SemPc) : Prop where
  read : pc'.Read
  counted : s'.waiters + pc.counted = s.waiters + pc'.counted
  /-- What is in the semaphore was posted and not taken. -/
  balance : s'.takes + low s'.val + s.posts = s.takes + low s.val + s'.posts
  awake : pc.wakingOne = 0 ∧ pc.wakingAll = 0
  asleep : pc'.sleeping ≠ 0 → pc.sleeping = 0 ∧ low s'.val = 0 ∧ s'.val.msb = true
  mark : s.val.msb = true → s'.val.msb = true ∨ pc'.wakingAll ≠ 0
  /-- Each unit that is posted to sleepers comes with a wake, and a context that stops trying took a
  unit or saw none. -/
  unit : s.val.msb = true → pc'.wakingAll ≠ 0 ∨ low s'.val = 0 ∨
    low s'.val + pc.trying ≤ low s.val + pc'.wakingOne + pc'.trying

section SemMove

variable {s : Sem} {pc pc' : SemPc}

/-- A context that only moves, and neither to sleep nor to wake. -/
theorem semMove_goto (hread : pc'.Read) (hcounted : pc'.counted = pc.counted)
    (hawake : pc.wakingOne = 0 ∧ pc.wakingAll = 0) (hasleep : pc'.sleeping = 0)
    (htrying : low s.val = 0 ∨ pc.trying ≤ pc'.trying) : SemMove s pc s pc' where
  read := hread
  counted := by rw [hcounted]
  balance := rfl
  awake := hawake
  asleep := fun h => absurd hasleep h
  mark := Or.inl
  unit := fun _ => by
    rcases htrying with h | h
    · exact Or.inr (Or.inl h)
    · exact Or.inr (Or.inr (by omega))

theorem semMove_next {w : Sem × SemPc} (hread : pc.Read) (hcount : pc.counted ≤ s.waiters)
    (h : pc.next s = some w) : SemMove s pc w.1 w.2 := by
  cases pc with
  | idle => cases h
  | asleep deadline => cases h
  | wake all => cases h
  | tryLoad how =>
    obtain rfl := Option.some.inj h
    split_ifs with hsome
    · have hread' : low s.val ≠ 0 := fun hzero => hsome (and_bits_eq_zero.mpr hzero)
      cases how <;> exact semMove_goto hread' rfl ⟨rfl, rfl⟩ rfl (Or.inr le_rfl)
    · have hzero : low s.val = 0 := and_bits_eq_zero.mp (not_not.mp hsome)
      cases how <;> exact semMove_goto trivial rfl ⟨rfl, rfl⟩ rfl (Or.inl hzero)
  | tryCas how val =>
    obtain rfl := Option.some.inj h
    split_ifs with hval
    · -- one unit is taken, and the mark stays
      obtain ⟨hlow, hmark⟩ := low_sub_one hread
      subst hval
      refine ⟨trivial, rfl, ?_, ⟨rfl, rfl⟩, nofun, ?_, ?_⟩
      · show s.takes + 1 + low (s.val - 1) + s.posts = s.takes + low s.val + s.posts
        omega
      · exact fun hm => Or.inl (hmark.trans hm)
      · refine fun _ => Or.inr (Or.inr ?_)
        have htry : (tryCas how s.val).trying ≤ 1 := by
          cases how <;> first | exact le_rfl | exact Nat.zero_le _
        show low (s.val - 1) + _ ≤ low s.val + 0 + 0
        omega
    · cases how <;> exact semMove_goto trivial rfl ⟨rfl, rfl⟩ rfl (Or.inr le_rfl)
  | spin deadline n =>
    cases n with
    | zero =>
      obtain rfl := Option.some.inj h
      exact semMove_goto trivial rfl ⟨rfl, rfl⟩ rfl (Or.inr (Nat.zero_le _))
    | succ n =>
      obtain rfl := Option.some.inj h
      split_ifs <;> exact semMove_goto trivial rfl ⟨rfl, rfl⟩ rfl (Or.inr (Nat.zero_le _))
  | spinWaiters deadline n =>
    obtain rfl := Option.some.inj h
    split_ifs <;> exact semMove_goto trivial rfl ⟨rfl, rfl⟩ rfl (Or.inr (Nat.zero_le _))
  | inc deadline =>
    obtain rfl := Option.some.inj h
    exact ⟨trivial, rfl, rfl, ⟨rfl, rfl⟩, nofun, Or.inl, fun _ => Or.inr (Or.inr le_rfl)⟩
  | mark deadline =>
    obtain rfl := Option.some.inj h
    have hlow : low Marked.mark = 0 := rfl
    by_cases hzero : s.val = 0
    · have hval : low s.val = 0 := (eq_zero_iff.mp hzero).1
      rw [if_pos hzero]
      refine ⟨trivial, rfl, ?_, ⟨rfl, rfl⟩, nofun, fun _ => Or.inl ?_,
        fun _ => Or.inr (Or.inl hlow)⟩
      · show s.takes + low Marked.mark + s.posts = s.takes + low s.val + s.posts
        omega
      · show Marked.mark.msb = true
        decide
    · rw [if_neg hzero]
      exact semMove_goto trivial rfl ⟨rfl, rfl⟩ rfl (Or.inr le_rfl)
  | wait deadline =>
    obtain rfl := Option.some.inj h
    split_ifs with hval
    · -- the only way to sleep: the value is zero and the mark is on
      refine ⟨trivial, rfl, rfl, ⟨rfl, rfl⟩, fun _ => ⟨rfl, ?_, ?_⟩, Or.inl, ?_⟩
      · rw [hval]
        rfl
      · rw [hval]
        rfl
      · exact fun _ => Or.inr (Or.inl (by rw [hval]; rfl))
    · exact semMove_goto trivial rfl ⟨rfl, rfl⟩ rfl (Or.inr (Nat.zero_le _))
  | dec deadline ended =>
    obtain rfl := Option.some.inj h
    have hpos : 1 ≤ s.waiters := hcount
    have hless : s.waiters - 1 + 1 = s.waiters + 0 := by omega
    cases ended
    · exact ⟨trivial, hless, rfl, ⟨rfl, rfl⟩, nofun, Or.inl, fun _ => Or.inr (Or.inr le_rfl)⟩
    · exact ⟨trivial, hless, rfl, ⟨rfl, rfl⟩, nofun, Or.inl, fun _ => Or.inr (Or.inr le_rfl)⟩
  | postVal =>
    obtain rfl := Option.some.inj h
    exact semMove_goto trivial rfl ⟨rfl, rfl⟩ rfl (Or.inr le_rfl)
  | postWaiters val =>
    obtain rfl := Option.some.inj h
    have hlt := low_lt val
    split_ifs with hfull
    · exact semMove_goto trivial rfl ⟨rfl, rfl⟩ rfl (Or.inr le_rfl)
    · refine semMove_goto ?_ rfl ⟨rfl, rfl⟩ rfl (Or.inr le_rfl)
      rw [and_bits_eq, show bits.toNat = 2 ^ 31 - 1 from rfl] at hfull
      show low val < 2 ^ 31 - 1
      omega
  | postCas val waiters =>
    obtain rfl := Option.some.inj h
    obtain ⟨hlow, hmark⟩ := low_add_one hread
    by_cases hval : s.val = val
    · subst hval
      simp only [if_true]
      -- both values have the same count: only the mark is kept or taken off
      have hcount' : low (if waiters ≤ 1 then (s.val + 1) &&& ~~~Marked.mark else s.val + 1) =
          low s.val + 1 := by
        split_ifs
        · rw [low_unmark.1, hlow]
        · exact hlow
      refine ⟨?_, ?_, ?_, ⟨rfl, rfl⟩, ?_, ?_, ?_⟩
      · show Read (if s.val.msb then .wake (decide (waiters ≤ 1)) else .idle)
        split_ifs <;> trivial
      · show s.waiters + 0 = s.waiters + counted (if s.val.msb then _ else .idle)
        split_ifs <;> rfl
      · show s.takes + low (if waiters ≤ 1 then _ else _) + s.posts =
          s.takes + low s.val + (s.posts + 1)
        rw [hcount']
        omega
      · show sleeping (if s.val.msb then _ else .idle) ≠ 0 → _
        split_ifs <;> exact fun h => absurd rfl h
      · intro hm
        show (if waiters ≤ 1 then _ else _ : BitVec 32).msb = true ∨
          wakingAll (if s.val.msb then _ else .idle) ≠ 0
        rw [if_pos hm]
        by_cases hone : waiters ≤ 1
        · exact Or.inr (by simp [hone, wakingAll])
        · rw [if_neg hone]
          exact Or.inl (hmark.trans hm)
      · intro hm
        show wakingAll (if s.val.msb then _ else .idle) ≠ 0 ∨ _ ∨
          low (if waiters ≤ 1 then _ else _) + 0 ≤
            low s.val + wakingOne (if s.val.msb then _ else .idle) + trying _
        rw [if_pos hm, hcount']
        by_cases hone : waiters ≤ 1
        · exact Or.inl (by simp [hone, wakingAll])
        · refine Or.inr (Or.inr ?_)
          rw [show decide (waiters ≤ 1) = false from decide_eq_false hone]
          show low s.val + 1 + 0 ≤ low s.val + 1 + _
          omega
    · rw [if_neg hval]
      exact semMove_goto trivial rfl ⟨rfl, rfl⟩ rfl (Or.inr le_rfl)

/-- **One atomic step**, call or end of a wait. -/
theorem semMove_act {a : SemAct} {w : Sem × SemPc} (hread : pc.Read)
    (hcount : pc.counted ≤ s.waiters) (h : pc.act s a = some w) : SemMove s pc w.1 w.2 := by
  cases a with
  | call f =>
    simp only [SemPc.act, Option.ite_none_right_eq_some, Option.some.injEq] at h
    obtain ⟨rfl, rfl⟩ := h
    cases f <;> exact semMove_goto trivial rfl ⟨rfl, rfl⟩ rfl (Or.inr (Nat.zero_le _))
  | step => exact semMove_next hread hcount h
  | returned =>
    cases pc <;> simp only [SemPc.act, reduceCtorEq, Option.some.injEq] at h
    obtain rfl := h
    exact semMove_goto trivial rfl ⟨rfl, rfl⟩ rfl (Or.inr (Nat.zero_le _))
  | expired =>
    cases pc <;> simp only [SemPc.act, reduceCtorEq] at h
    all_goals
      rename_i deadline
      cases deadline <;> simp only [reduceCtorEq, Option.some.injEq] at h
      obtain rfl := h
      exact semMove_goto trivial rfl ⟨rfl, rfl⟩ rfl (Or.inr (Nat.zero_le _))
  | cancelled =>
    cases pc <;> simp only [SemPc.act, reduceCtorEq, Option.some.injEq] at h
    obtain rfl := h
    exact semMove_goto trivial rfl ⟨rfl, rfl⟩ rfl (Or.inr (Nat.zero_le _))

end SemMove

/-! ## The account of a semaphore -/

theorem semaphore_sleepsOn {C : Type*} {x : C} {pc : SemPc} :
    (semaphore C).sleepsOn x pc = some () ↔ pc.sleeping ≠ 0 := by
  cases pc <;> simp [semaphore, sleeping]

theorem semaphore_wakes {C : Type*} {pc p : SemPc} {all : Bool}
    (h : (semaphore C).wakes pc = some (⟨(), all⟩, p)) : pc = .wake all ∧ p = .idle := by
  cases pc <;> simp_all [semaphore]

/-- A sleeper that is released is about to try again. -/
theorem released_of_sleeping {pc : SemPc} (h : pc.sleeping ≠ 0) :
    pc.trying = 0 ∧ pc.wakingOne = 0 ∧ pc.wakingAll = 0 ∧ pc.released.trying = 1 ∧
      pc.released.wakingOne = 0 ∧ pc.released.wakingAll = 0 ∧ pc.released.sleeping = 0 ∧
      pc.released.counted = pc.counted ∧ pc.released.Read := by
  cases pc <;> first | exact absurd rfl h | exact ⟨rfl, rfl, rfl, rfl, rfl, rfl, rfl, rfl, trivial⟩

variable {C : Type*} [Fintype C]

/-- The account of a semaphore that was given the value `n`. A sleeper sleeps on a marked
semaphore, or a wake of all is on its way; and each unit there is has a wake on its way, or a
context that is about to try. -/
structure SemInv (n : ℕ) (s : SemState C) : Prop where
  read : ∀ c, (s.at_ c).Read
  counted : s.shared.waiters = s.total SemPc.counted
  balance : s.shared.takes + low s.shared.val = n + s.shared.posts
  mark : 0 < s.total sleeping → s.shared.val.msb = true ∨ 0 < s.total wakingAll
  unit : 0 < s.total sleeping →
    0 < s.total wakingAll ∨ low s.shared.val ≤ s.total wakingOne + s.total trying

namespace SemInv

variable {n : ℕ} {s t : SemState C}

theorem start (value : BitVec 32) : SemInv (low value) (SemState.start value : SemState C) := by
  have hnone : (SemState.start value : SemState C).total sleeping = 0 :=
    Parked.total_eq_zero.mpr fun _ => rfl
  refine ⟨fun _ => trivial, (Parked.total_eq_zero.mpr fun _ => rfl).symm, ?_, ?_, ?_⟩
  · show 0 + low value = low value + 0
    omega
  · exact fun h => absurd hnone h.ne'
  · exact fun h => absurd hnone h.ne'

variable [DecidableEq C] {c : C}

/-- **An act of one context** keeps the account. -/
theorem put (hi : SemInv n s) {w : Sem × SemPc}
    (hm : SemMove s.shared (s.at_ c) w.1 w.2) : SemInv n (s.put c w) := by
  have hcounted := s.total_put SemPc.counted c w
  have hsleeping := s.total_put sleeping c w
  have hone := s.total_put wakingOne c w
  have hall := s.total_put wakingAll c w
  have htrying := s.total_put trying c w
  obtain ⟨hone₀, hall₀⟩ := hm.awake
  rw [hone₀] at hone
  rw [hall₀] at hall
  -- whoever sleeps afterwards slept before, or is the context itself on a marked zero
  have hslept : 0 < (s.put c w).total sleeping →
      0 < s.total sleeping ∨ low w.1.val = 0 ∧ w.1.val.msb = true := by
    intro h
    by_cases hw : w.2.sleeping = 0
    · exact Or.inl (by omega)
    · exact Or.inr (hm.asleep hw).2
  have hmarked : 0 < (s.put c w).total sleeping → s.total wakingAll = 0 →
      0 < s.total sleeping → s.shared.val.msb = true := by
    intro _ hno hs
    rcases hi.mark hs with h | h
    · exact h
    · omega
  refine ⟨fun x => ?_, ?_, ?_, fun h => ?_, fun h => ?_⟩
  · by_cases hx : x = c
    · subst hx
      rw [Parked.put_at_self]
      exact hm.read
    · rw [s.put_at_of_ne hx]
      exact hi.read x
  · have := hm.counted
    have := hi.counted
    show w.1.waiters = _
    omega
  · have := hm.balance
    have := hi.balance
    show w.1.takes + low w.1.val = n + w.1.posts
    omega
  · rcases hslept h with hs | ⟨-, hmark⟩
    · rcases Nat.eq_zero_or_pos (s.total wakingAll) with hno | hyes
      · rcases hm.mark (hmarked h hno hs) with hmark | hwaking
        · exact Or.inl hmark
        · exact Or.inr (by omega)
      · exact Or.inr (by omega)
    · exact Or.inl hmark
  · show _ ∨ low w.1.val ≤ _
    rcases hslept h with hs | ⟨hzero, -⟩
    · rcases Nat.eq_zero_or_pos (s.total wakingAll) with hno | hyes
      · have hunit := (hi.unit hs).resolve_left (by omega)
        rcases hm.unit (hmarked h hno hs) with hwaking | hzero | hle
        · exact Or.inl (by omega)
        · exact Or.inr (by omega)
        · exact Or.inr (by omega)
      · exact Or.inl (by omega)
    · exact Or.inr (by omega)

/-- A wake is over and nobody sleeps. -/
theorem finish (hi : SemInv n s) {all : Bool} (hc : s.at_ c = .wake all)
    (hnone : s.total sleeping = 0) : SemInv n (s.goto c .idle) := by
  have hsleeping := s.total_goto sleeping c .idle
  have hcounted := s.total_goto SemPc.counted c .idle
  rw [hc] at hsleeping hcounted
  have hno : (s.goto c .idle).total sleeping = 0 := by
    have : sleeping .idle = 0 := rfl
    omega
  refine ⟨fun x => ?_, ?_, hi.balance, fun h => absurd hno h.ne', fun h => absurd hno h.ne'⟩
  · by_cases hx : x = c
    · subst hx
      rw [Parked.goto_at_self]
      trivial
    · rw [s.goto_at_of_ne hx]
      exact hi.read x
  · have hi' := hi.counted
    have hzero : SemPc.counted (.wake all) = 0 ∧ SemPc.counted .idle = 0 := ⟨rfl, rfl⟩
    show s.shared.waiters = _
    omega

/-- A wake of one releases a sleeper. -/
theorem wakeOne (hi : SemInv n s) {y : C} (hc : s.at_ c = .wake false)
    (hy : (s.at_ y).sleeping ≠ 0) (hne : y ≠ c) :
    SemInv n ((s.goto y (s.at_ y).released).goto c .idle) := by
  obtain ⟨htry, hone, hall, htry', hone', hall', hsleep', hcount', hread'⟩ :=
    released_of_sleeping hy
  -- the sleeper goes first, and then the context that woke it
  have hmid : (s.goto y (s.at_ y).released).at_ c = .wake false := by
    rw [s.goto_at_of_ne hne.symm, hc]
  have htotal : ∀ f : SemPc → ℕ,
      ((s.goto y (s.at_ y).released).goto c .idle).total f + f (.wake false) + f (s.at_ y) =
        s.total f + f (s.at_ y).released + f .idle := by
    intro f
    have h₁ := s.total_goto f y (s.at_ y).released
    have h₂ := (s.goto y (s.at_ y).released).total_goto f c .idle
    rw [hmid] at h₂
    omega
  have hsleeping := htotal sleeping
  have hones := htotal wakingOne
  have halls := htotal wakingAll
  have htryings := htotal trying
  have hcounted := htotal SemPc.counted
  have hwake : sleeping (.wake false) = 0 ∧ wakingOne (.wake false) = 1 ∧
    wakingAll (.wake false) = 0 ∧ trying (.wake false) = 0 ∧
      SemPc.counted (.wake false) = 0 := ⟨rfl, rfl, rfl, rfl, rfl⟩
  have hidle : sleeping .idle = 0 ∧ wakingOne .idle = 0 ∧ wakingAll .idle = 0 ∧
    trying .idle = 0 ∧ SemPc.counted .idle = 0 := ⟨rfl, rfl, rfl, rfl, rfl⟩
  refine ⟨fun x => ?_, ?_, hi.balance, fun h => ?_, fun h => ?_⟩
  · by_cases hx : x = c
    · subst hx
      rw [Parked.goto_at_self]
      trivial
    · rw [Parked.goto_at_of_ne _ hx]
      by_cases hxy : x = y
      · subst hxy
        rw [Parked.goto_at_self]
        exact hread'
      · rw [s.goto_at_of_ne hxy]
        exact hi.read x
  · have hi' := hi.counted
    show s.shared.waiters = _
    omega
  · show s.shared.val.msb = true ∨ _
    rcases hi.mark (by omega) with h | h
    · exact Or.inl h
    · exact Or.inr (by omega)
  · show _ ∨ low s.shared.val ≤ _
    rcases hi.unit (by omega) with h | h
    · exact Or.inl (by omega)
    · exact Or.inr (by omega)

/-- A wake of all leaves nobody asleep. -/
theorem wakeAll (hi : SemInv n s) (hc : s.at_ c = .wake true) :
    SemInv n ((s.releaseAll (semaphore C).sleepsOn SemPc.released ()).goto c .idle) := by
  have hpc : ∀ x, (s.releaseAll (semaphore C).sleepsOn SemPc.released ()).at_ x =
      if (s.at_ x).sleeping ≠ 0 then (s.at_ x).released else s.at_ x := by
    intro x
    simp only [Parked.releaseAll, semaphore_sleepsOn]
  set u := s.releaseAll (semaphore C).sleepsOn SemPc.released ()
  have hnone : u.total sleeping = 0 := by
    refine Parked.total_eq_zero.mpr fun x => ?_
    rw [hpc]
    split_ifs with hx
    · exact (released_of_sleeping hx).2.2.2.2.2.2.1
    · exact not_not.mp hx
  have hcounted : u.total SemPc.counted = s.total SemPc.counted := by
    refine Parked.total_congr fun x => ?_
    rw [hpc]
    split_ifs with hx
    · exact (released_of_sleeping hx).2.2.2.2.2.2.2.1
    · rfl
  have hread : ∀ x, (u.at_ x).Read := by
    intro x
    rw [hpc]
    split_ifs with hx
    · exact (released_of_sleeping hx).2.2.2.2.2.2.2.2
    · exact hi.read x
  have hu : SemInv n u := ⟨hread, hi.counted.trans hcounted.symm, hi.balance,
    fun h => absurd hnone h.ne', fun h => absurd hnone h.ne'⟩
  have hstill : u.at_ c = .wake true := by
    rw [hpc, hc]
    rfl
  exact hu.finish hstill hnone

theorem stepped (hi : SemInv n s) (h : (semaphore C).Stepped s t) : SemInv n t := by
  cases h with
  | act c a h => exact hi.put (semMove_act (hi.read c) (hi.counted ▸ Parked.le_total c) h)
  | wakeNone c h hnone =>
    obtain ⟨hc, rfl⟩ := semaphore_wakes h
    refine hi.finish hc (Parked.total_eq_zero.mpr fun y => ?_)
    by_contra hy
    exact hnone y (semaphore_sleepsOn.mpr hy)
  | wakeOne c y h hy hne =>
    obtain ⟨hc, rfl⟩ := semaphore_wakes h
    exact hi.wakeOne hc (semaphore_sleepsOn.mp hy) hne
  | wakeAll c h =>
    obtain ⟨hc, rfl⟩ := semaphore_wakes h
    exact hi.wakeAll hc

end SemInv

variable [DecidableEq C]

/-- **A semaphore conserves its value and leaves no sleeper to it.** In every run what was taken and
what is there make up what there was and what was posted, the count of waiters is exact, and while a
context sleeps every unit there is has a wake on its way or a context that is about to try for it,
unless a wake of all is on its way. -/
theorem semaphore_conserves {value : BitVec 32} {s : SemState C}
    (h : Reachable (semaphore C).step (SemState.start value) s) :
    s.shared.takes + low s.shared.val = low value + s.shared.posts ∧
      s.shared.waiters = s.total SemPc.counted ∧
      ((∃ x deadline, s.at_ x = .asleep deadline) → (∃ c, s.at_ c = .wake true) ∨
        low s.shared.val ≤ s.total wakingOne + s.total trying) := by
  have hi : SemInv (low value) s :=
    Parking.invariant (SemInv.start value) (fun _ _ hu hv => hu.stepped hv) h
  refine ⟨hi.balance, hi.counted, ?_⟩
  rintro ⟨x, deadline, hx⟩
  have hsome : 0 < s.total sleeping := by
    have hle := Parked.le_total (f := sleeping) (s := s) x
    rw [hx] at hle
    exact hle
  rcases hi.unit hsome with hall | hunit
  · obtain ⟨c, hc⟩ := Parked.exists_of_total_pos hall
    refine Or.inl ⟨c, ?_⟩
    revert hc
    generalize s.at_ c = pc
    intro hc
    cases pc <;> first | exact absurd hc (Nat.lt_irrefl 0) | skip
    rename_i all
    cases all
    · exact absurd hc (Nat.lt_irrefl 0)
    · rfl
  · exact Or.inr hunit

/-- One context waits and sleeps, and the other posts and stands before its wake. -/
def postsToSleeper : List (ParkMove Bool SemAct) :=
  .act true (.call (.wait false)) :: List.replicate 206 (.act true .step) ++
    .act false (.call .post) :: List.replicate 3 (.act false .step)

theorem semaphore_conserves_posted :
    ∃ s : SemState Bool, Reachable (semaphore Bool).step (SemState.start 0) s ∧
      s.at_ true = .asleep false ∧ low s.shared.val = 1 ∧
      ((∃ x deadline, s.at_ x = .asleep deadline) → (∃ c, s.at_ c = .wake true) ∨
        low s.shared.val ≤ s.total wakingOne + s.total trying) := by
  have hrun : (run (semaphore Bool).step (SemState.start 0) postsToSleeper).map
      (fun s => (s.at_ true, low s.shared.val)) = some (.asleep false, 1) := by decide +kernel
  obtain ⟨s, hs, heq⟩ := Option.map_eq_some_iff.mp hrun
  simp only [Prod.mk.injEq] at heq
  exact ⟨s, ⟨_, hs⟩, heq.1, heq.2, (semaphore_conserves ⟨_, hs⟩).2.2⟩

end OpenkalMusl
