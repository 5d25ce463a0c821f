import OpenkalMusl.Transition.Parking

/-!
# The library's own lock

`__lock` and `__unlock` of musl on one word, as any number of contexts interleave their atomic
steps. The word is the number of contexts that hold the lock or wait for it, with `INT_MIN` added
while it is held. A context tries a few times without being counted; then it counts itself, and
sleeps only on a value that says that the lock is held. What it expects after a wake is the count
without the one that held the lock.

The process has more than one context, so that `libc.need_locks` is not zero. The count is an
integer; it fits the word where there are fewer than 2^31 contexts.

## Main definitions

* `InternalLockPc`, `InternalLockPc.act`: where a context is in these functions, and what it does
  next
* `internalLock`: the protocol

## Main results

* `internalLockMove_act`: what one atomic step of one context can do
* `internalLock_excludes_and_wakes`: one context at most holds the lock, and no context sleeps on a
  free one unless another is about to wake it or to try
-/

namespace OpenkalMusl

open Transition

/-- `INT_MIN`. -/
def intMin : ℤ := -2147483648

/-- Where a context is; `current` is what it expects of the word. -/
inductive InternalLockPc where
  | idle
  /-- `__lock`: the fast path, the spin with so many rounds left, the increment, and the loop. -/
  | fast
  | spin (current : ℤ) (left : ℕ)
  | count
  | test (current : ℤ)
  | wait (current : ℤ)
  | asleep (current : ℤ)
  | cas (current : ℤ)
  | holds
  /-- `__unlock`. -/
  | unlockRead
  | unlock
  | wake
  deriving DecidableEq

inductive InternalLockAct where
  | lock
  | unlock
  | step
  /-- A wait returns without a wake. -/
  | returned
  deriving DecidableEq

namespace InternalLockPc

/-- What is expected of the word once the lock is free, where it said `current`. -/
def expected (current : ℤ) : ℤ := current - (intMin + 1)

/-- The next atomic step of a context that neither sleeps nor wakes. -/
def next (l : ℤ) : InternalLockPc → Option (ℤ × InternalLockPc)
  | .fast => some (if l = 0 then (intMin + 1, .holds) else (l, .spin l 10))
  | .spin _ 0 => some (l, .count)
  | .spin current (i + 1) =>
    let current := if current < 0 then expected current else current
    some (if l = current then (intMin + (current + 1), .holds) else (l, .spin l i))
  | .count => some (l + 1, .test (l + 1))
  | .test current => some (l, if current < 0 then .wait current else .cas current)
  | .wait current => some (l, if l = current then .asleep current else .cas (expected current))
  | .cas current => some (if l = current then (intMin + current, .holds) else (l, .test l))
  | .unlockRead => some (l, if l < 0 then .unlock else .idle)
  | .unlock => some (l - (intMin + 1), if l ≠ intMin + 1 then .wake else .idle)
  | .idle | .asleep _ | .holds | .wake => none

/-- An atomic step, a call, or the end of a wait. -/
def act (l : ℤ) (pc : InternalLockPc) : InternalLockAct → Option (ℤ × InternalLockPc)
  | .lock => if pc = .idle then some (l, .fast) else none
  | .unlock => if pc = .holds then some (l, .unlockRead) else none
  | .step => pc.next l
  | .returned =>
    match pc with
    | .asleep current => some (l, .cas (expected current))
    | _ => none

def released : InternalLockPc → InternalLockPc
  | .asleep current => .cas (expected current)
  | pc => pc

end InternalLockPc

/-- The protocol of the lock. -/
def internalLock (C : Type*) : Parking C ℤ InternalLockPc InternalLockAct Unit where
  act := fun _ => InternalLockPc.act
  sleepsOn := fun _ pc => match pc with
    | .asleep _ => some ()
    | _ => none
  released := InternalLockPc.released
  wakes := fun pc => match pc with
    | .wake => some (⟨(), false⟩, .idle)
    | _ => none

/-- Contexts on one lock. -/
abbrev InternalLockState (C : Type*) := Parked C ℤ InternalLockPc

def InternalLockState.start {C : Type*} : InternalLockState C := ⟨0, fun _ => .idle⟩

/-! ## What one step can do -/

namespace InternalLockPc

/-- The lock is held until the word says that it is not. -/
def holding : InternalLockPc → ℕ
  | .holds | .unlockRead | .unlock => 1
  | _ => 0

/-- Counted, and waiting for the lock. -/
def waiting : InternalLockPc → ℕ
  | .test _ | .wait _ | .asleep _ | .cas _ => 1
  | _ => 0

def sleeping : InternalLockPc → ℕ
  | .asleep _ => 1
  | _ => 0

/-- About to try the lock once more before it would sleep. -/
def trying : InternalLockPc → ℕ
  | .test _ | .wait _ | .cas _ => 1
  | _ => 0

def waking : InternalLockPc → ℕ
  | .wake => 1
  | _ => 0

/-- What a context has read is the count of a lock that is free, or of one that is held; and where
it is counted itself, it is one of these. -/
def Read : InternalLockPc → Prop
  | .spin current _ => 0 ≤ current ∨ intMin + 1 ≤ current
  | .test current => 0 < current ∨ intMin + 2 ≤ current ∧ current < 0
  | .wait current | .asleep current => intMin + 2 ≤ current ∧ current < 0
  | .cas current => 0 < current
  | _ => True

/-- What the word is to a context at `pc`: the count of a free lock, or of one that is held. -/
structure Sees (l : ℤ) (pc : InternalLockPc) : Prop where
  free_or_held : 0 ≤ l ∨ intMin + 1 ≤ l
  fits : l + intMin < 0
  /-- A context that waits is one of those that are counted. -/
  counted : pc.waiting ≠ 0 → 0 < l ∨ intMin + 2 ≤ l ∧ l < 0
  held : pc.holding ≠ 0 → l < 0
  /-- There is room for a context that is not counted. -/
  room : pc.holding + pc.waiting = 0 → l < 0 → l + 1 < 0

end InternalLockPc

open InternalLockPc

/-- What an atomic step of a context at `pc` does: it leaves the context at `pc'`. -/
structure InternalLockMove (l : ℤ) (pc : InternalLockPc) (l' : ℤ) (pc' : InternalLockPc) :
    Prop where
  read : pc'.Read
  /-- The word counts who holds the lock and who waits. -/
  word : l' + intMin * pc.holding + (pc.holding + pc.waiting) =
    l + intMin * pc'.holding + (pc'.holding + pc'.waiting)
  /-- Only a free lock is taken. -/
  takes : pc.holding < pc'.holding → 0 ≤ l
  awake : pc.waking = 0
  asleep : pc'.sleeping ≠ 0 → l' < 0
  /-- A lock that others wait for is given up with a wake. -/
  gives : l < 0 → 0 ≤ l' → pc'.waking ≠ 0 ∨ l = intMin + 1
  /-- Nobody stops trying while the lock is free. -/
  tries : 0 ≤ l → 0 ≤ l' → pc.trying ≤ pc'.trying

section InternalLockMove

variable {l : ℤ} {pc pc' : InternalLockPc}

/-- A context that only moves. -/
theorem internalLockMove_goto (hread : pc'.Read) (hholding : pc'.holding = pc.holding)
    (hwaiting : pc'.waiting = pc.waiting) (hawake : pc.waking = 0) (hasleep : pc'.sleeping = 0)
    (htrying : 0 ≤ l → pc.trying ≤ pc'.trying) : InternalLockMove l pc l pc' where
  read := hread
  word := by rw [hholding, hwaiting]
  takes := fun h => by omega
  awake := hawake
  asleep := fun h => absurd hasleep h
  gives := fun h h' => absurd h (by omega)
  tries := fun h _ => htrying h

theorem internalLockMove_next {w : ℤ × InternalLockPc} (hread : pc.Read) (hl : pc.Sees l)
    (h : pc.next l = some w) : InternalLockMove l pc w.1 w.2 := by
  have hfits := hl.fits
  cases pc with
  | idle => cases h
  | asleep current => cases h
  | holds => cases h
  | wake => cases h
  | fast =>
    obtain rfl := Option.some.inj h
    split_ifs with hzero
    · subst hzero
      exact ⟨trivial, rfl, fun _ => le_rfl, rfl, nofun, nofun, fun _ _ => le_rfl⟩
    · exact internalLockMove_goto hl.free_or_held rfl rfl rfl rfl fun _ => le_rfl
  | spin current left =>
    cases left with
    | zero =>
      obtain rfl := Option.some.inj h
      exact internalLockMove_goto trivial rfl rfl rfl rfl fun _ => le_rfl
    | succ i =>
      obtain rfl := Option.some.inj h
      have hpos : 0 ≤ (if current < 0 then expected current else current) := by
        have hcurrent : 0 ≤ current ∨ intMin + 1 ≤ current := hread
        unfold expected
        split_ifs <;> omega
      generalize (if current < 0 then expected current else current) = expects at hpos
      split_ifs with hfree
      · subst hfree
        refine ⟨trivial, ?_, fun _ => hpos, rfl, nofun, fun h => absurd h (by omega),
          fun _ _ => le_rfl⟩
        show intMin + (l + 1) + intMin * (0 : ℕ) + ((0 : ℕ) + (0 : ℕ)) =
          l + intMin * (1 : ℕ) + ((1 : ℕ) + (0 : ℕ))
        omega
      · exact internalLockMove_goto hl.free_or_held rfl rfl rfl rfl fun _ => le_rfl
  | count =>
    obtain rfl := Option.some.inj h
    refine ⟨?_, ?_, nofun, rfl, nofun, fun hneg hpos => ?_, fun _ _ => Nat.zero_le _⟩
    · have hcount := hl.free_or_held
      have hroom := hl.room rfl
      show 0 < l + 1 ∨ intMin + 2 ≤ l + 1 ∧ l + 1 < 0
      omega
    · show l + 1 + intMin * (0 : ℕ) + ((0 : ℕ) + (0 : ℕ)) =
        l + intMin * (0 : ℕ) + ((0 : ℕ) + (1 : ℕ))
      omega
    · have hroom := hl.room rfl hneg
      dsimp only at hpos
      omega
  | test current =>
    obtain rfl := Option.some.inj h
    have hcurrent : 0 < current ∨ intMin + 2 ≤ current ∧ current < 0 := hread
    split_ifs with hneg
    · exact internalLockMove_goto ⟨by omega, hneg⟩ rfl rfl rfl rfl fun _ => le_rfl
    · refine internalLockMove_goto ?_ rfl rfl rfl rfl fun _ => le_rfl
      show 0 < current
      omega
  | wait current =>
    obtain rfl := Option.some.inj h
    obtain ⟨hcurrent, hneg⟩ : intMin + 2 ≤ current ∧ current < 0 := hread
    split_ifs with hheld
    · -- the only way to sleep: the word says that the lock is held
      subst hheld
      exact ⟨⟨hcurrent, hneg⟩, rfl, nofun, rfl, fun _ => hneg, fun _ h => absurd h (by omega),
        fun h => absurd h (by omega)⟩
    · refine internalLockMove_goto ?_ rfl rfl rfl rfl fun _ => le_rfl
      show 0 < expected current
      unfold expected
      omega
  | cas current =>
    obtain rfl := Option.some.inj h
    have hcurrent : 0 < current := hread
    split_ifs with hfree
    · subst hfree
      refine ⟨trivial, ?_, fun _ => hcurrent.le, rfl, nofun, fun h => absurd h (by omega),
        fun _ hpos => ?_⟩
      · show intMin + l + intMin * (0 : ℕ) + ((0 : ℕ) + (1 : ℕ)) =
          l + intMin * (1 : ℕ) + ((1 : ℕ) + (0 : ℕ))
        omega
      · dsimp only at hpos
        omega
    · exact internalLockMove_goto (hl.counted Nat.one_ne_zero) rfl rfl rfl rfl fun _ => le_rfl
  | unlockRead =>
    obtain rfl := Option.some.inj h
    rw [if_pos (hl.held Nat.one_ne_zero)]
    exact internalLockMove_goto trivial rfl rfl rfl rfl fun _ => le_rfl
  | unlock =>
    obtain rfl := Option.some.inj h
    have hheld := hl.held Nat.one_ne_zero
    by_cases halone : l = intMin + 1
    · rw [if_neg (not_not_intro halone)]
      refine ⟨trivial, ?_, nofun, rfl, nofun, fun _ _ => .inr halone, fun h => absurd h (by omega)⟩
      show l - (intMin + 1) + intMin * (1 : ℕ) + ((1 : ℕ) + (0 : ℕ)) =
        l + intMin * (0 : ℕ) + ((0 : ℕ) + (0 : ℕ))
      omega
    · rw [if_pos halone]
      refine ⟨trivial, ?_, nofun, rfl, nofun, fun _ _ => .inl Nat.one_ne_zero,
        fun h => absurd h (by omega)⟩
      show l - (intMin + 1) + intMin * (1 : ℕ) + ((1 : ℕ) + (0 : ℕ)) =
        l + intMin * (0 : ℕ) + ((0 : ℕ) + (0 : ℕ))
      omega

/-- **One atomic step**, call or end of a wait. -/
theorem internalLockMove_act {a : InternalLockAct} {w : ℤ × InternalLockPc} (hread : pc.Read)
    (hl : pc.Sees l) (h : pc.act l a = some w) : InternalLockMove l pc w.1 w.2 := by
  cases a with
  | lock =>
    simp only [InternalLockPc.act, Option.ite_none_right_eq_some, Option.some.injEq] at h
    obtain ⟨rfl, rfl⟩ := h
    exact internalLockMove_goto trivial rfl rfl rfl rfl fun _ => le_rfl
  | unlock =>
    simp only [InternalLockPc.act, Option.ite_none_right_eq_some, Option.some.injEq] at h
    obtain ⟨rfl, rfl⟩ := h
    exact internalLockMove_goto trivial rfl rfl rfl rfl fun _ => le_rfl
  | step => exact internalLockMove_next hread hl h
  | returned =>
    cases pc <;> simp only [InternalLockPc.act, reduceCtorEq, Option.some.injEq] at h
    obtain rfl := h
    rename_i current
    obtain ⟨hcurrent, -⟩ : intMin + 2 ≤ current ∧ current < 0 := hread
    refine internalLockMove_goto ?_ rfl rfl rfl rfl fun _ => Nat.zero_le _
    show 0 < expected current
    unfold expected
    omega

end InternalLockMove

/-! ## The account of the lock -/

theorem internalLock_sleepsOn {C : Type*} {x : C} {pc : InternalLockPc} :
    (internalLock C).sleepsOn x pc = some () ↔ pc.sleeping ≠ 0 := by
  cases pc <;> simp [internalLock, sleeping]

theorem internalLock_wakes {C : Type*} {pc p : InternalLockPc} {all : Bool}
    (h : (internalLock C).wakes pc = some (⟨(), all⟩, p)) :
    pc = .wake ∧ all = false ∧ p = .idle := by
  cases pc <;> simp_all [internalLock]

/-- A sleeper that is released is about to try again. -/
theorem InternalLockPc.released_of_asleep {pc : InternalLockPc} (hread : pc.Read)
    (h : pc.sleeping ≠ 0) :
    pc.holding = 0 ∧ pc.waiting = 1 ∧ pc.trying = 0 ∧ pc.waking = 0 ∧ pc.released.holding = 0 ∧
      pc.released.waiting = 1 ∧ pc.released.trying = 1 ∧ pc.released.waking = 0 ∧
      pc.released.sleeping = 0 ∧ pc.released.Read := by
  cases pc <;> first | exact absurd rfl h | skip
  rename_i current
  obtain ⟨hcurrent, -⟩ : intMin + 2 ≤ current ∧ current < 0 := hread
  refine ⟨rfl, rfl, rfl, rfl, rfl, rfl, rfl, rfl, rfl, ?_⟩
  show 0 < expected current
  unfold expected
  omega

variable {C : Type*} [Fintype C]

/-- The account of the lock: the word counts who holds it and who waits, at most one context holds
it, and while it is free a sleeper has a wake on its way, or a context that is about to try. -/
structure InternalLockInv (s : InternalLockState C) : Prop where
  read : ∀ c, (s.at_ c).Read
  word : s.shared = intMin * (s.total holding : ℕ) +
    ((s.total holding : ℕ) + (s.total waiting : ℕ))
  one : s.total holding ≤ 1
  wakes : 0 ≤ s.shared → 0 < s.total sleeping → 0 < s.total waking + s.total trying

namespace InternalLockInv

variable {s t : InternalLockState C}

theorem start : InternalLockInv (InternalLockState.start : InternalLockState C) := by
  have hnone : ∀ f : InternalLockPc → ℕ, f .idle = 0 →
      (InternalLockState.start : InternalLockState C).total f = 0 :=
    fun f hf => Parked.total_eq_zero.mpr fun _ => hf
  refine ⟨fun _ => trivial, ?_, ?_, fun _ h => ?_⟩
  · rw [hnone holding rfl, hnone waiting rfl]
    rfl
  · rw [hnone holding rfl]
    exact Nat.zero_le 1
  · rw [hnone sleeping rfl] at h
    exact absurd h (Nat.lt_irrefl 0)

/-- Those that are counted are contexts. -/
theorem total_le_card (s : InternalLockState C) :
    s.total holding + s.total waiting ≤ Fintype.card C := by
  unfold Parked.total
  rw [← Finset.sum_add_distrib, ← Finset.card_univ, Finset.card_eq_sum_ones]
  refine Finset.sum_le_sum fun c _ => ?_
  cases s.at_ c <;> simp [holding, waiting]

/-- Whoever sleeps is counted. -/
theorem sleeping_le_waiting (s : InternalLockState C) : s.total sleeping ≤ s.total waiting := by
  refine Finset.sum_le_sum fun c _ => ?_
  cases s.at_ c <;> simp [sleeping, waiting]

variable [DecidableEq C] {c : C}

/-- A context that is not counted is one more. -/
theorem total_lt_card (h : (s.at_ c).holding + (s.at_ c).waiting = 0) :
    s.total holding + s.total waiting < Fintype.card C := by
  have hle := total_le_card (s.goto c (.test 0))
  have hholding := s.total_goto holding c (.test 0)
  have hwaiting := s.total_goto waiting c (.test 0)
  have htest : holding (.test 0) = 0 ∧ waiting (.test 0) = 1 := ⟨rfl, rfl⟩
  omega

theorem sees (hi : InternalLockInv s) (hcard : Fintype.card C < 2 ^ 31) (c : C) :
    (s.at_ c).Sees s.shared := by
  have hword := hi.word
  have hone := hi.one
  have hle := total_le_card s
  have hholds : (s.at_ c).holding ≤ s.total holding := Parked.le_total c
  have hwaits : (s.at_ c).waiting ≤ s.total waiting := Parked.le_total c
  have hmin : intMin = -2147483648 := rfl
  -- held or not, the word is the count
  have hcases : s.total holding = 0 ∧ s.shared = s.total waiting ∨
      s.total holding = 1 ∧ s.shared = intMin + 1 + s.total waiting := by
    rcases Nat.le_one_iff_eq_zero_or_eq_one.mp hone with h | h <;> rw [h] at hword
    · exact .inl ⟨h, by omega⟩
    · exact .inr ⟨h, by omega⟩
  refine ⟨by omega, by omega, fun h => by omega, fun h => by omega, fun h hneg => ?_⟩
  have hlt := total_lt_card h
  omega

/-- **An act of one context** keeps the account. -/
theorem put (hi : InternalLockInv s) (hcard : Fintype.card C < 2 ^ 31) {w : ℤ × InternalLockPc}
    (hm : InternalLockMove s.shared (s.at_ c) w.1 w.2) : InternalLockInv (s.put c w) := by
  have hholding := s.total_put holding c w
  have hwaiting := s.total_put waiting c w
  have hsleeping := s.total_put sleeping c w
  have hwaking := s.total_put waking c w
  have htrying := s.total_put trying c w
  rw [hm.awake] at hwaking
  have hword := hi.word
  have hmove := hm.word
  have hone := hi.one
  have hle := total_le_card s
  have hslept := sleeping_le_waiting s
  have hmin : intMin = -2147483648 := rfl
  rw [hmin] at hword hmove
  refine ⟨fun x => ?_, ?_, ?_, fun hfree hasleep => ?_⟩
  · by_cases hx : x = c
    · subst hx
      rw [Parked.put_at_self]
      exact hm.read
    · rw [s.put_at_of_ne hx]
      exact hi.read x
  · rw [hmin]
    show w.1 = _
    omega
  · -- a lock that is taken was free
    rcases Nat.lt_or_ge (s.at_ c).holding w.2.holding with htaken | hkept
    · have hfree := hm.takes htaken
      have hat : w.2.holding ≤ 1 := by cases w.2 <;> simp [holding]
      omega
    · omega
  · have hfree : 0 ≤ w.1 := hfree
    have hnot : w.2.sleeping = 0 := by
      by_contra h
      exact absurd (hm.asleep h) (by omega)
    rcases Int.lt_or_le s.shared 0 with hheld | hbefore
    · rcases hm.gives hheld hfree with hwake | halone
      · omega
      · -- nobody waits for a lock whose holder alone is counted
        rw [hmin] at halone
        omega
    · have hwakes := hi.wakes hbefore (by omega)
      have htries := hm.tries hbefore hfree
      omega

/-- A wake finds nobody. -/
theorem wakeNone (hi : InternalLockInv s) (hc : s.at_ c = .wake) (hnone : s.total sleeping = 0) :
    InternalLockInv (s.goto c .idle) := by
  have hholding := s.total_goto holding c .idle
  have hwaiting := s.total_goto waiting c .idle
  have hsleeping := s.total_goto sleeping c .idle
  rw [hc] at hholding hwaiting hsleeping
  have hwake : holding .wake = 0 ∧ waiting .wake = 0 ∧ sleeping .wake = 0 := ⟨rfl, rfl, rfl⟩
  have hidle : holding .idle = 0 ∧ waiting .idle = 0 ∧ sleeping .idle = 0 := ⟨rfl, rfl, rfl⟩
  have hsame : (s.goto c .idle).total holding = s.total holding ∧
      (s.goto c .idle).total waiting = s.total waiting := by omega
  refine ⟨fun x => ?_, ?_, ?_, fun _ h => ?_⟩
  · by_cases hx : x = c
    · subst hx
      rw [Parked.goto_at_self]
      trivial
    · rw [s.goto_at_of_ne hx]
      exact hi.read x
  · rw [hsame.1, hsame.2]
    exact hi.word
  · rw [hsame.1]
    exact hi.one
  · omega

/-- A wake releases a sleeper. -/
theorem wakeOne (hi : InternalLockInv s) {y : C} (hc : s.at_ c = .wake)
    (hy : (s.at_ y).sleeping ≠ 0) (hne : y ≠ c) :
    InternalLockInv ((s.goto y (s.at_ y).released).goto c .idle) := by
  obtain ⟨hhold, hwait, htry, hwake, hhold', hwait', htry', hwake', hsleep', hread'⟩ :=
    released_of_asleep (hi.read y) hy
  -- the sleeper goes first, and then the context that woke it
  have hmid : (s.goto y (s.at_ y).released).at_ c = .wake := by
    rw [s.goto_at_of_ne hne.symm, hc]
  have htotal : ∀ f : InternalLockPc → ℕ,
      ((s.goto y (s.at_ y).released).goto c .idle).total f + f .wake + f (s.at_ y) =
        s.total f + f (s.at_ y).released + f .idle := by
    intro f
    have h₁ := s.total_goto f y (s.at_ y).released
    have h₂ := (s.goto y (s.at_ y).released).total_goto f c .idle
    rw [hmid] at h₂
    omega
  have hholding := htotal holding
  have hwaiting := htotal waiting
  have htrying := htotal trying
  have hat : holding .wake = 0 ∧ waiting .wake = 0 ∧ trying .wake = 0 := ⟨rfl, rfl, rfl⟩
  have hidle : holding .idle = 0 ∧ waiting .idle = 0 ∧ trying .idle = 0 := ⟨rfl, rfl, rfl⟩
  have hsame : ((s.goto y (s.at_ y).released).goto c .idle).total holding = s.total holding ∧
      ((s.goto y (s.at_ y).released).goto c .idle).total waiting = s.total waiting := by omega
  refine ⟨fun x => ?_, ?_, ?_, fun _ _ => by omega⟩
  · by_cases hx : x = c
    · subst hx
      rw [Parked.goto_at_self]
      trivial
    · rw [Parked.goto_at_of_ne _ hx]
      by_cases hxy : x = y
      · subst hxy
        rw [Parked.goto_at_self]
        exact hread'
      · rw [s.goto_at_of_ne hxy]
        exact hi.read x
  · rw [hsame.1, hsame.2]
    exact hi.word
  · rw [hsame.1]
    exact hi.one

theorem stepped (hi : InternalLockInv s) (hcard : Fintype.card C < 2 ^ 31)
    (h : (internalLock C).Stepped s t) : InternalLockInv t := by
  cases h with
  | act c a h => exact hi.put hcard (internalLockMove_act (hi.read c) (hi.sees hcard c) h)
  | wakeNone c h hnone =>
    obtain ⟨hc, -, rfl⟩ := internalLock_wakes h
    refine hi.wakeNone hc (Parked.total_eq_zero.mpr fun y => ?_)
    by_contra hy
    exact hnone y (internalLock_sleepsOn.mpr hy)
  | wakeOne c y h hy hne =>
    obtain ⟨hc, -, rfl⟩ := internalLock_wakes h
    exact hi.wakeOne hc (internalLock_sleepsOn.mp hy) hne
  | wakeAll c h => cases (internalLock_wakes h).2.1

end InternalLockInv

variable [DecidableEq C]

/-- **The library's lock excludes and wakes.** In every run one context at most holds the lock; the
word is the number of contexts that hold it or wait for it, and negative just where one holds it;
what a context expects of a free lock is a count, which includes itself once it is counted; and no
context sleeps on a free lock unless a wake is on its way or another is about to try. -/
theorem internalLock_excludes_and_wakes (hcard : Fintype.card C < 2 ^ 31) {s : InternalLockState C}
    (h : Reachable (internalLock C).step InternalLockState.start s) :
    (∀ c d, (s.at_ c).holding = 1 → (s.at_ d).holding = 1 → c = d) ∧
      (s.shared < 0 ↔ ∃ c, (s.at_ c).holding = 1) ∧
      s.shared - (if s.shared < 0 then intMin else 0) =
        (s.total holding + s.total waiting : ℕ) ∧
      (∀ c current left, s.at_ c = .spin current left → current < 0 → 0 ≤ expected current) ∧
      (∀ c current, s.at_ c = .cas current → 0 < current) ∧
      ((∃ x current, s.at_ x = .asleep current) → 0 ≤ s.shared →
        ∃ c, s.at_ c = .wake ∨ (s.at_ c).trying = 1) := by
  have hi : InternalLockInv s :=
    Parking.invariant InternalLockInv.start (fun _ _ hu hv => hu.stepped hcard hv) h
  have hword := hi.word
  have hone := hi.one
  have hle := InternalLockInv.total_le_card s
  have hmin : intMin = -2147483648 := rfl
  have hcases : s.total holding = 0 ∧ s.shared = s.total waiting ∨
      s.total holding = 1 ∧ s.shared = intMin + 1 + s.total waiting := by
    rcases Nat.le_one_iff_eq_zero_or_eq_one.mp hone with h | h <;> rw [h] at hword
    · exact .inl ⟨h, by omega⟩
    · exact .inr ⟨h, by omega⟩
  have hheld : s.shared < 0 ↔ s.total holding = 1 := by omega
  refine ⟨fun c d hc hd => ?_, ?_, ?_, fun c current left hc hneg => ?_, fun c current hc => ?_, ?_⟩
  · by_contra hne
    have hboth := Parked.add_le_total (f := holding) (s := s) hne
    omega
  · rw [hheld]
    refine ⟨fun h => ?_, fun ⟨c, hc⟩ => ?_⟩
    · obtain ⟨c, hc⟩ := Parked.exists_of_total_pos (f := holding) (s := s) (by omega)
      have hat : (s.at_ c).holding ≤ s.total holding := Parked.le_total c
      exact ⟨c, by omega⟩
    · have hat : (s.at_ c).holding ≤ s.total holding := Parked.le_total c
      omega
  · split_ifs <;> omega
  · have hread := hi.read c
    rw [hc] at hread
    have hcurrent : 0 ≤ current ∨ intMin + 1 ≤ current := hread
    unfold expected
    omega
  · have hread := hi.read c
    rwa [hc] at hread
  · rintro ⟨x, current, hx⟩ hfree
    have hsome : 0 < s.total sleeping := by
      have hat : (s.at_ x).sleeping ≤ s.total sleeping := Parked.le_total x
      rw [hx] at hat
      exact hat
    rcases Nat.eq_zero_or_pos (s.total waking) with hnone | hwake
    · obtain ⟨c, hc⟩ := Parked.exists_of_total_pos (f := trying) (s := s)
        (by have := hi.wakes hfree hsome; omega)
      refine ⟨c, .inr ?_⟩
      revert hc
      cases s.at_ c <;> simp [trying]
    · obtain ⟨c, hc⟩ := Parked.exists_of_total_pos hwake
      refine ⟨c, .inl ?_⟩
      revert hc
      cases s.at_ c <;> simp [waking]

/-- One context holds the lock, another waits and sleeps, and the first gives the lock up and stands
before its wake. -/
def givesToSleeper : List (ParkMove Bool InternalLockAct) :=
  [.act true .lock, .act true .step, .act false .lock] ++
    List.replicate 15 (.act false .step) ++ .act true .unlock :: List.replicate 2 (.act true .step)

theorem internalLock_excludes_and_wakes_sleeper :
    ∃ s : InternalLockState Bool, Reachable (internalLock Bool).step InternalLockState.start s ∧
      s.at_ false = .asleep (intMin + 2) ∧ s.shared = 1 ∧
      ∃ c, s.at_ c = .wake ∨ (s.at_ c).trying = 1 := by
  have hrun : (run (internalLock Bool).step InternalLockState.start givesToSleeper).map
      (fun s => (s.at_ false, s.shared)) = some (.asleep (intMin + 2), 1) := by decide +kernel
  obtain ⟨s, hs, heq⟩ := Option.map_eq_some_iff.mp hrun
  simp only [Prod.mk.injEq] at heq
  have hall := internalLock_excludes_and_wakes (C := Bool) (by decide) ⟨_, hs⟩
  exact ⟨s, ⟨_, hs⟩, heq.1, heq.2, hall.2.2.2.2.2 ⟨_, _, heq.1⟩ (by rw [heq.2]; decide)⟩

end OpenkalMusl
