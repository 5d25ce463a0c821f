import OpenkalMusl.Threads.Waiters

/-!
# Waiting for a condition variable, in every run

What holds in every run of contexts that wait for a condition variable and signal it: its lock
excludes, no step uses a node that is gone, a signal goes to the oldest that waits, and whoever was
signaled is reached. That the port wakes a sleeper where musl asks that it be moved to the mutex
strands nobody.

## Main results

* `cond_uses_live_nodes`: no step uses a node whose context is gone
* `cond_signals_oldest`: a signal goes to the oldest that waits, and a broadcast to all
* `cond_strands_nobody`: where a context has been signaled, one can go on, or the program holds the
  mutex
-/

namespace OpenkalMusl

open Transition

namespace CondPc

variable {C : Type*}

/-- Asleep on the lock, about to take it so that the others are woken, or about to wake one. -/
def lockAsleep : CondPc C → ℕ
  | .lock _ (.wait .asleep) => 1
  | _ => 0

def retrying : CondPc C → ℕ
  | .lock _ (.wait .asleep) => 0
  | .lock _ (.wait _) | .lock _ .take => 1
  | _ => 0

def lockWaking : CondPc C → ℕ
  | .unlockWake _ => 1
  | _ => 0

/-- Asleep on the own barrier, or on the own count. -/
def onBarrier : CondPc C → Bool
  | .parked | .barrier _ (.wait .asleep) => true
  | _ => false

def onRef : CondPc C → Bool
  | .watching _ _ .asleep => true
  | _ => false

/-- About to wake whoever sleeps on the barrier of a node, or on the count of a signaler. -/
def opens : CondPc C → Option C
  | .passWake _ x | .freeWake x => some x
  | _ => none

def tells : CondPc C → Option C
  | .notifyWake _ s => some s
  | _ => none

/-- The context may hold the mutex. -/
def mayOwn : CondPc C → Bool
  | .park | .parked | .test _ | .leave _ | .lock (.unlink _) _ | .crit (.unlink _)
  | .unlock (.unlinked _) | .unlockWake (.unlinked _) | .notify _ | .notifyWake _ _ | .barrier _ _
  | .relock _ _ => false
  | _ => true

/-- A signaler sleeps only on a count that is not zero. -/
def Reads : CondPc C → Prop
  | .watching _ cur _ => cur ≠ 0
  | _ => True

end CondPc

open CondPc

/-! ## The lock -/

/-- What an atomic step does to the lock of the condition variable. -/
structure CondLockMove {C : Type*} (l : ℕ) (pc : CondPc C) (l' : ℕ) (pc' : CondPc C) : Prop where
  word : (l' = l ∨ l = 1 ∧ l' = 2) ∧ pc'.holding = pc.holding ∨
    l = 0 ∧ (l' = 1 ∨ l' = 2) ∧ pc.holding = 0 ∧ pc'.holding = 1 ∨
    l' = 0 ∧ pc.holding = 1 ∧ pc'.holding = 0
  awake : pc.lockWaking = 0
  asleep : pc'.lockAsleep ≠ 0 → l' = 2
  /-- Who stops trying has marked the lock, or sleeps on a marked one. -/
  retries : l' = 2 ∨ pc.retrying ≤ pc'.retrying
  wakes : l = 2 → l' = 2 ∨ pc'.lockWaking ≠ 0

section Lock

variable {C : Type*} {l : ℕ} {pc pc' : CondPc C}

theorem condLockMove_goto (hholding : pc'.holding = pc.holding) (hawake : pc.lockWaking = 0)
    (hasleep : pc'.lockAsleep = 0) (hretries : pc.retrying ≤ pc'.retrying) :
    CondLockMove l pc l pc' where
  word := .inl ⟨.inl rfl, hholding⟩
  awake := hawake
  asleep h := absurd hasleep h
  retries := .inr hretries
  wakes := .inl

/-- A step of `lock` on the lock. -/
theorem condLockMove_lock {k : CondSection} {a : LockAt} (ha : a ≠ .wait .asleep) :
    CondLockMove l (.lock k a) (a.next l).1
      ((a.next l).2.elim (.crit k) (.lock k) : CondPc C) := by
  cases a with
  | cas =>
    by_cases hzero : l = 0
    · rw [show LockAt.cas.next l = (1, none) from if_pos hzero]
      refine ⟨.inr (.inl ⟨hzero, .inl rfl, rfl, rfl⟩), rfl, fun h => absurd rfl h, .inr le_rfl, ?_⟩
      omega
    · rw [show LockAt.cas.next l = (l, some .mark) from if_neg hzero]
      exact condLockMove_goto rfl rfl rfl le_rfl
  | mark =>
    by_cases hone : l = 1
    · rw [show LockAt.mark.next l = (2, some (.wait (.spin 100))) from
        congrArg (·, some (LockAt.wait (.spin 100))) (if_pos hone)]
      exact ⟨.inl ⟨.inr ⟨hone, rfl⟩, rfl⟩, rfl, fun h => absurd rfl h, .inl rfl, fun _ => .inl rfl⟩
    · rw [show LockAt.mark.next l = (l, some (.wait (.spin 100))) from
        congrArg (·, some (LockAt.wait (.spin 100))) (if_neg hone)]
      exact condLockMove_goto rfl rfl rfl (Nat.zero_le _)
  | take =>
    by_cases hzero : l = 0
    · rw [show LockAt.take.next l = (2, none) from if_pos hzero]
      exact ⟨.inr (.inl ⟨hzero, .inr rfl, rfl, rfl⟩), rfl, fun h => absurd rfl h, .inl rfl,
        fun _ => .inl rfl⟩
    · rw [show LockAt.take.next l = (l, some (.wait (.spin 100))) from if_neg hzero]
      exact condLockMove_goto rfl rfl rfl le_rfl
  | wait w =>
    show CondLockMove l _ l (.lock k ((w.next l 2).elim .take .wait))
    -- the word is only read, and a context falls asleep only where it is marked
    cases w with
    | spin n =>
      cases n with
      | zero => exact condLockMove_goto rfl rfl rfl le_rfl
      | succ n =>
        by_cases htwo : l = 2
        · rw [show (WaitAt.spin (n + 1)).next l 2 = some (.spin n) from if_pos htwo]
          exact condLockMove_goto rfl rfl rfl le_rfl
        · rw [show (WaitAt.spin (n + 1)).next l 2 = none from if_neg htwo]
          exact condLockMove_goto rfl rfl rfl le_rfl
    | test =>
      by_cases htwo : l = 2
      · rw [show WaitAt.test.next l 2 = some .wait from if_pos htwo]
        exact condLockMove_goto rfl rfl rfl le_rfl
      · rw [show WaitAt.test.next l 2 = none from if_neg htwo]
        exact condLockMove_goto rfl rfl rfl le_rfl
    | wait =>
      by_cases htwo : l = 2
      · rw [show WaitAt.wait.next l 2 = some .asleep from congrArg some (if_pos htwo)]
        exact ⟨.inl ⟨.inl rfl, rfl⟩, rfl, fun _ => htwo, .inl htwo, .inl⟩
      · rw [show WaitAt.wait.next l 2 = some .test from congrArg some (if_neg htwo)]
        exact condLockMove_goto rfl rfl rfl le_rfl
    | asleep => exact absurd rfl ha

theorem condLockMove_next [DecidableEq C] {o : Cond C} {c : C} {w : Cond C × CondPc C}
    (hw : pc.next o c = some w) : CondLockMove o.lock pc w.1.lock w.2 := by
  cases pc with
  | idle => cases hw
  | unlockWake d => cases hw
  | parked => cases hw
  | notifyWake e s => cases hw
  | passWake e x => cases hw
  | returned e => cases hw
  | freeWake x => cases hw
  | lock k a =>
    simp only [CondPc.next, Option.ite_none_left_eq_some, Option.some.injEq] at hw
    obtain ⟨ha, rfl⟩ := hw
    exact condLockMove_lock ha
  | crit k => cases k <;> cases hw <;> exact condLockMove_goto rfl rfl rfl le_rfl
  | visit n p first =>
    cases p with
    | none => cases hw; exact condLockMove_goto rfl rfl rfl le_rfl
    | some x =>
      obtain rfl := Option.some.inj hw
      split_ifs <;> exact condLockMove_goto rfl rfl rfl le_rfl
  | unlock d =>
    obtain rfl := Option.some.inj hw
    split_ifs with htwo
    · exact ⟨.inr (.inr ⟨rfl, rfl, rfl⟩), rfl, fun h => absurd rfl h, .inr le_rfl,
        fun _ => .inr Nat.one_ne_zero⟩
    · refine ⟨.inr (.inr ⟨rfl, rfl, ?_⟩), rfl, ?_, .inr (Nat.zero_le _), fun h => absurd h htwo⟩
      · cases d <;> rfl
      · cases d <;> exact fun h => absurd rfl h
  | release => cases hw; exact condLockMove_goto rfl rfl rfl le_rfl
  | park =>
    obtain rfl := Option.some.inj hw
    split_ifs <;> exact condLockMove_goto rfl rfl rfl le_rfl
  | test e =>
    obtain rfl := Option.some.inj hw
    split_ifs <;> exact condLockMove_goto rfl rfl rfl le_rfl
  | leave e =>
    obtain rfl := Option.some.inj hw
    split_ifs <;> exact condLockMove_goto rfl rfl rfl le_rfl
  | notify e =>
    obtain rfl := Option.some.inj hw
    split
    · exact condLockMove_goto rfl rfl rfl le_rfl
    · split_ifs <;> exact condLockMove_goto rfl rfl rfl le_rfl
  | barrier e a =>
    simp only [CondPc.next, Option.ite_none_left_eq_some, Option.some.injEq] at hw
    obtain ⟨-, rfl⟩ := hw
    cases (a.next (o.barrier c)).2 <;> exact condLockMove_goto rfl rfl rfl le_rfl
  | relock e signaled =>
    simp only [CondPc.next, Option.ite_none_right_eq_some, Option.some.injEq] at hw
    obtain ⟨-, rfl⟩ := hw
    cases signaled <;> exact condLockMove_goto rfl rfl rfl le_rfl
  | pass e =>
    obtain rfl := Option.some.inj hw
    split <;> exact condLockMove_goto rfl rfl rfl le_rfl
  | watch first =>
    obtain rfl := Option.some.inj hw
    split_ifs <;> exact condLockMove_goto rfl rfl rfl le_rfl
  | watching first cur a =>
    simp only [CondPc.next, Option.ite_none_left_eq_some, Option.some.injEq] at hw
    obtain ⟨-, rfl⟩ := hw
    cases a.next (o.ref c) cur <;> exact condLockMove_goto rfl rfl rfl le_rfl
  | free first =>
    cases first with
    | none => cases hw; exact condLockMove_goto rfl rfl rfl le_rfl
    | some x =>
      obtain rfl := Option.some.inj hw
      split_ifs <;> exact condLockMove_goto rfl rfl rfl le_rfl

end Lock

/-! ## The sleepers -/

/-- What an atomic step of `c` does to the words that contexts sleep on, and to the mutex. -/
structure CondSleepMove {C : Type*} (c : C) (o : Cond C) (pc : CondPc C) (o' : Cond C)
    (pc' : CondPc C) : Prop where
  reads : pc'.Reads
  awake : pc.opens = none ∧ pc.tells = none
  /-- A barrier is opened, and a count is brought to zero, by who then wakes. -/
  barrier : ∀ x ≠ c, o'.barrier x = 0 → o.barrier x = 0 ∨ pc'.opens = some x
  ref : ∀ x ≠ c, o'.ref x = 0 → o.ref x = 0 ∨ pc'.tells = some x
  onBarrier : pc'.onBarrier = true → o'.barrier c ≠ 0
  onRef : pc'.onRef = true → o'.ref c ≠ 0
  owner : ∀ x, o'.owner = some x → x = c ∧ pc'.mayOwn = true ∨ x ≠ c ∧ o.owner = some x

section Sleep

variable {C : Type*} {c : C} {o o' : Cond C} {pc pc' : CondPc C}

/-- A step after which `c` is awake, and the mutex is whose it was. -/
theorem condSleepMove_awake (howner : o'.owner = o.owner) (hreads : pc'.Reads)
    (hawake : pc.opens = none ∧ pc.tells = none)
    (hasleep : pc'.onBarrier = false ∧ pc'.onRef = false)
    (hbarrier : ∀ x ≠ c, o'.barrier x = 0 → o.barrier x = 0 ∨ pc'.opens = some x)
    (href : ∀ x ≠ c, o'.ref x = 0 → o.ref x = 0 ∨ pc'.tells = some x)
    (hown : o.owner = some c → pc'.mayOwn = true) : CondSleepMove c o pc o' pc' where
  reads := hreads
  awake := hawake
  barrier := hbarrier
  ref := href
  onBarrier h := by
    rw [hasleep.1] at h
    cases h
  onRef h := by
    rw [hasleep.2] at h
    cases h
  owner x hx := by
    rw [howner] at hx
    by_cases hxc : x = c
    · exact .inl ⟨hxc, hown (hxc ▸ hx)⟩
    · exact .inr ⟨hxc, hx⟩

/-- A step that writes none of these words. -/
theorem condSleepMove_goto (hsame : o'.barrier = o.barrier ∧ o'.ref = o.ref ∧ o'.owner = o.owner)
    (hreads : pc'.Reads) (hawake : pc.opens = none ∧ pc.tells = none)
    (hasleep : pc'.onBarrier = false ∧ pc'.onRef = false)
    (hown : o.owner = some c → pc'.mayOwn = true) : CondSleepMove c o pc o' pc' := by
  refine condSleepMove_awake hsame.2.2 hreads hawake hasleep (fun x _ h => .inl ?_)
    (fun x _ h => .inl ?_) hown
  · rwa [hsame.1] at h
  · rwa [hsame.2.1] at h

/-- A context falls asleep only on the value that it waits with. -/
theorem WaitAt.word_of_asleep {a : WaitAt} {word val : ℕ} (ha : a ≠ .asleep)
    (h : a.next word val = some .asleep) : word = val := by
  cases a with
  | spin n =>
    cases n with
    | zero => cases h
    | succ n => simp [WaitAt.next] at h
  | test => simp [WaitAt.next] at h
  | wait => simpa [WaitAt.next] using h
  | asleep => exact absurd rfl ha

theorem LockAt.word_of_asleep {a : LockAt} {word : ℕ} (ha : a ≠ .wait .asleep)
    (h : (a.next word).2 = some (.wait .asleep)) : (a.next word).1 = 2 := by
  cases a with
  | cas =>
    unfold LockAt.next at h
    split_ifs at h <;> cases h
  | mark => cases h
  | take =>
    unfold LockAt.next at h
    split_ifs at h <;> cases h
  | wait w =>
    have hw : w ≠ .asleep := fun heq => ha (by rw [heq])
    have hnext : (w.next word 2).elim LockAt.take .wait = .wait .asleep := Option.some.inj h
    show word = 2
    cases hn : w.next word 2 with
    | none =>
      rw [hn] at hnext
      cases hnext
    | some w' =>
      rw [hn] at hnext
      exact WaitAt.word_of_asleep hw (hn.trans (congrArg some (LockAt.wait.inj hnext)))

variable [DecidableEq C]

theorem condSleepMove_next {w : Cond C × CondPc C} (hreads : pc.Reads)
    (hfree : ∀ x, pc = .free (some x) → o.barrier x = 2)
    (hown : o.owner = some c → pc.mayOwn = true) (hw : pc.next o c = some w) :
    CondSleepMove c o pc w.1 w.2 := by
  -- a context on its way into a wait or out of it has not the mutex
  have hno : pc.mayOwn = false → o.owner ≠ some c := fun hfalse h => by
    rw [hown h] at hfalse
    cases hfalse
  cases pc with
  | idle => cases hw
  | unlockWake d => cases hw
  | parked => cases hw
  | notifyWake e s => cases hw
  | passWake e x => cases hw
  | returned e => cases hw
  | freeWake x => cases hw
  | lock k a =>
    simp only [CondPc.next, Option.ite_none_left_eq_some, Option.some.injEq] at hw
    obtain ⟨-, rfl⟩ := hw
    cases (a.next o.lock).2 <;> cases k <;>
      exact condSleepMove_goto ⟨rfl, rfl, rfl⟩ trivial ⟨rfl, rfl⟩ ⟨rfl, rfl⟩ hown
  | crit k =>
    cases k with
    | enter =>
      obtain rfl := Option.some.inj hw
      refine condSleepMove_awake rfl trivial ⟨rfl, rfl⟩ ⟨rfl, rfl⟩ (fun x hx h => .inl ?_)
        (fun _ _ h => .inl h) fun _ => rfl
      rwa [show (o.enter c).barrier x = o.barrier x from Function.update_of_ne hx ..] at h
    | unlink e =>
      obtain rfl := Option.some.inj hw
      exact condSleepMove_goto ⟨rfl, rfl, rfl⟩ trivial ⟨rfl, rfl⟩ ⟨rfl, rfl⟩ hown
    | signal n =>
      obtain rfl := Option.some.inj hw
      refine condSleepMove_awake rfl trivial ⟨rfl, rfl⟩ ⟨rfl, rfl⟩ (fun _ _ h => .inl h)
        (fun x hx h => .inl ?_) fun _ => rfl
      replace h : Function.update o.ref c 0 x = 0 := h
      rwa [Function.update_of_ne hx] at h
  | visit n p first =>
    cases p with
    | none =>
      obtain rfl := Option.some.inj hw
      exact condSleepMove_goto ⟨rfl, rfl, rfl⟩ trivial ⟨rfl, rfl⟩ ⟨rfl, rfl⟩ fun _ => rfl
    | some x =>
      obtain rfl := Option.some.inj hw
      split_ifs
      · exact condSleepMove_goto ⟨rfl, rfl, rfl⟩ trivial ⟨rfl, rfl⟩ ⟨rfl, rfl⟩ fun _ => rfl
      · exact condSleepMove_goto ⟨rfl, rfl, rfl⟩ trivial ⟨rfl, rfl⟩ ⟨rfl, rfl⟩ fun _ => rfl
      · refine condSleepMove_awake rfl trivial ⟨rfl, rfl⟩ ⟨rfl, rfl⟩ (fun _ _ h => .inl h)
          (fun y hy h => .inl ?_) fun _ => rfl
        replace h : Function.update o.ref c (o.ref c + 1) y = 0 := h
        rwa [Function.update_of_ne hy] at h
  | unlock d =>
    obtain rfl := Option.some.inj hw
    split_ifs <;> cases d <;>
      exact condSleepMove_goto ⟨rfl, rfl, rfl⟩ trivial ⟨rfl, rfl⟩ ⟨rfl, rfl⟩ hown
  | release =>
    obtain rfl := Option.some.inj hw
    exact ⟨trivial, ⟨rfl, rfl⟩, fun _ _ h => .inl h, fun _ _ h => .inl h,
      fun h => absurd h Bool.false_ne_true, fun h => absurd h Bool.false_ne_true,
      fun x hx => absurd hx.symm (Option.some_ne_none x)⟩
  | park =>
    obtain rfl := Option.some.inj hw
    split_ifs with hclosed
    · refine ⟨trivial, ⟨rfl, rfl⟩, fun _ _ h => .inl h, fun _ _ h => .inl h, fun _ => ?_,
        fun h => absurd h Bool.false_ne_true,
        fun x hx => .inr ⟨fun heq => hno rfl (heq ▸ hx), hx⟩⟩
      show o.barrier c ≠ 0
      omega
    · exact condSleepMove_goto ⟨rfl, rfl, rfl⟩ trivial ⟨rfl, rfl⟩ ⟨rfl, rfl⟩ hown
  | test e =>
    obtain rfl := Option.some.inj hw
    split_ifs <;> exact condSleepMove_goto ⟨rfl, rfl, rfl⟩ trivial ⟨rfl, rfl⟩ ⟨rfl, rfl⟩ hown
  | leave e =>
    obtain rfl := Option.some.inj hw
    split_ifs <;> exact condSleepMove_goto ⟨rfl, rfl, rfl⟩ trivial ⟨rfl, rfl⟩ ⟨rfl, rfl⟩ hown
  | notify e =>
    obtain rfl := Option.some.inj hw
    split
    · exact condSleepMove_goto ⟨rfl, rfl, rfl⟩ trivial ⟨rfl, rfl⟩ ⟨rfl, rfl⟩ hown
    · next s hs =>
      have hother : ∀ x, x ≠ s → Function.update o.ref s (o.ref s - 1) x = o.ref x := fun x hx =>
        Function.update_of_ne hx ..
      have hpc : ∀ pc', pc' = (if o.ref s = 1 then CondPc.notifyWake e s else .relock e false) →
          pc'.onBarrier = false ∧ pc'.onRef = false ∧ pc'.Reads := by
        rintro pc' rfl
        split_ifs <;> exact ⟨rfl, rfl, trivial⟩
      specialize hpc _ rfl
      refine condSleepMove_awake rfl hpc.2.2 ⟨rfl, rfl⟩ ⟨hpc.1, hpc.2.1⟩ (fun _ _ h => .inl h)
        (fun x _ h => ?_) fun h => absurd h (hno rfl)
      -- whoever brings the count of `s` to zero wakes it
      replace h : Function.update o.ref s (o.ref s - 1) x = 0 := h
      by_cases hxs : x = s
      · subst hxs
        rw [Function.update_self] at h
        by_cases hone : o.ref x = 1
        · rw [if_pos hone]
          exact .inr rfl
        · exact .inl (by omega)
      · rw [hother x hxs] at h
        exact .inl h
  | barrier e a =>
    simp only [CondPc.next, Option.ite_none_left_eq_some, Option.some.injEq] at hw
    obtain ⟨hasleep, rfl⟩ := hw
    have hown' : ∀ x, o.owner = some x → x ≠ c := fun x hx heq => hno rfl (heq ▸ hx)
    have hpc : ∀ at' : Option LockAt, (at'.elim (CondPc.relock e true) (.barrier e) :
        CondPc C).Reads ∧ (at'.elim (CondPc.relock e true) (.barrier e) : CondPc C).onRef =
          false := by
      intro at'
      cases at' with
      | none => exact ⟨trivial, rfl⟩
      | some at' =>
        refine ⟨trivial, ?_⟩
        cases at' <;> rfl
    refine ⟨(hpc _).1, ⟨rfl, rfl⟩, fun x hx h => .inl ?_, fun _ _ h => .inl h, fun h => ?_,
      fun h => absurd ((hpc _).2.symm.trans h) Bool.false_ne_true,
      fun x hx => .inr ⟨hown' x hx, hx⟩⟩
    · replace h : Function.update o.barrier c _ x = 0 := h
      rwa [Function.update_of_ne hx] at h
    · show Function.update o.barrier c (a.next (o.barrier c)).1 c ≠ 0
      rw [Function.update_self]
      cases hat : (a.next (o.barrier c)).2 with
      | none =>
        rw [hat] at h
        cases h
      | some at' =>
        rw [hat] at h
        -- it fell asleep, and so it has marked the barrier
        obtain rfl : at' = .wait .asleep := by
          cases at' with
          | wait w =>
            cases w with
            | asleep => rfl
            | spin n => exact absurd h Bool.false_ne_true
            | test => exact absurd h Bool.false_ne_true
            | wait => exact absurd h Bool.false_ne_true
          | cas => exact absurd h Bool.false_ne_true
          | mark => exact absurd h Bool.false_ne_true
          | take => exact absurd h Bool.false_ne_true
        rw [LockAt.word_of_asleep hasleep hat]
        exact two_ne_zero
  | relock e signaled =>
    simp only [CondPc.next, Option.ite_none_right_eq_some, Option.some.injEq] at hw
    obtain ⟨-, rfl⟩ := hw
    cases signaled
    all_goals
      refine ⟨trivial, ⟨rfl, rfl⟩, fun _ _ h => .inl h, fun _ _ h => .inl h,
        fun h => absurd h Bool.false_ne_true, fun h => absurd h Bool.false_ne_true,
        fun x hx => .inl ⟨?_, rfl⟩⟩
      exact (Option.some.inj hx).symm
  | pass e =>
    obtain rfl := Option.some.inj hw
    split
    · exact condSleepMove_goto ⟨rfl, rfl, rfl⟩ trivial ⟨rfl, rfl⟩ ⟨rfl, rfl⟩ fun _ => rfl
    · next x hx =>
      refine condSleepMove_awake rfl trivial ⟨rfl, rfl⟩ ⟨rfl, rfl⟩ (fun y _ h => ?_)
        (fun _ _ h => .inl h) fun _ => rfl
      replace h : Function.update o.barrier x 0 y = 0 := h
      by_cases hyx : y = x
      · exact .inr (by rw [hyx]; rfl)
      · rw [Function.update_of_ne hyx] at h
        exact .inl h
  | watch first =>
    obtain rfl := Option.some.inj hw
    split_ifs with hzero
    · exact condSleepMove_goto ⟨rfl, rfl, rfl⟩ trivial ⟨rfl, rfl⟩ ⟨rfl, rfl⟩ fun _ => rfl
    · exact condSleepMove_goto ⟨rfl, rfl, rfl⟩ hzero ⟨rfl, rfl⟩ ⟨rfl, rfl⟩ fun _ => rfl
  | watching first cur a =>
    simp only [CondPc.next, Option.ite_none_left_eq_some, Option.some.injEq] at hw
    obtain ⟨hasleep, rfl⟩ := hw
    cases hat : a.next (o.ref c) cur with
    | none => exact condSleepMove_goto ⟨rfl, rfl, rfl⟩ trivial ⟨rfl, rfl⟩ ⟨rfl, rfl⟩ fun _ => rfl
    | some a' =>
      refine ⟨hreads, ⟨rfl, rfl⟩, fun _ _ h => .inl h, fun _ _ h => .inl h,
        fun h => absurd h Bool.false_ne_true, fun h => ?_, fun x hx => ?_⟩
      · obtain rfl : a' = .asleep := by
          cases a' with
          | asleep => rfl
          | spin n => cases h
          | test => cases h
          | wait => cases h
        rw [show o.ref c = cur from WaitAt.word_of_asleep hasleep hat]
        exact hreads
      · by_cases hxc : x = c
        · exact .inl ⟨hxc, rfl⟩
        · exact .inr ⟨hxc, hx⟩
  | free first =>
    cases first with
    | none =>
      obtain rfl := Option.some.inj hw
      exact condSleepMove_goto ⟨rfl, rfl, rfl⟩ trivial ⟨rfl, rfl⟩ ⟨rfl, rfl⟩ fun _ => rfl
    | some x =>
      obtain rfl := Option.some.inj hw
      rw [if_pos (hfree x rfl)]
      refine condSleepMove_awake rfl trivial ⟨rfl, rfl⟩ ⟨rfl, rfl⟩ (fun y _ h => ?_)
        (fun _ _ h => .inl h) fun _ => rfl
      replace h : Function.update o.barrier x 0 y = 0 := h
      by_cases hyx : y = x
      · exact .inr (by rw [hyx]; rfl)
      · rw [Function.update_of_ne hyx] at h
        exact .inl h

end Sleep

/-! ## Wakes -/

/-- A context that wakes goes on: it stays what it is to lists, to nodes and to the lock. -/
structure CondWoke {C : Type*} (k : CondWord C) (pc p : CondPc C) : Prop where
  stage : p.stage = pc.stage
  signals : p.signals = pc.signals
  holding : pc.holding = 0 ∧ p.holding = 0
  lock : pc.lockAsleep = 0 ∧ p.lockAsleep = 0 ∧ pc.retrying = 0 ∧ p.retrying = 0 ∧
    p.lockWaking = 0
  asleep : p.onBarrier = false ∧ p.onRef = false
  wakes : (pc.lockWaking ≠ 0 → k = .lock) ∧ (∀ x, pc.opens = some x → k = .barrier x) ∧
    ∀ s, pc.tells = some s → k = .ref s
  owns : pc.mayOwn = true → p.mayOwn = true
  reads : p.Reads

section Wake

variable {C : Type*}

/-- A sleeper that is released is what it was, awake. -/
theorem released_same (pc : CondPc C) :
    pc.released.stage = pc.stage ∧ pc.released.signals = pc.signals ∧
      pc.released.holding = pc.holding ∧ pc.released.mayOwn = pc.mayOwn ∧
      (pc.Reads → pc.released.Reads) ∧ pc.released.onBarrier = false ∧
      pc.released.onRef = false ∧ pc.released.lockAsleep = 0 ∧
      pc.retrying ≤ pc.released.retrying := by
  unfold CondPc.released
  split
  · rename_i k
    cases k <;> exact ⟨rfl, rfl, rfl, rfl, id, rfl, rfl, rfl, Nat.zero_le _⟩
  · exact ⟨rfl, rfl, rfl, rfl, id, rfl, rfl, rfl, Nat.zero_le _⟩
  · exact ⟨rfl, rfl, rfl, rfl, id, rfl, rfl, rfl, Nat.zero_le _⟩
  · exact ⟨rfl, rfl, rfl, rfl, id, rfl, rfl, rfl, Nat.zero_le _⟩
  · next h₁ h₂ h₃ h₄ =>
    refine ⟨rfl, rfl, rfl, rfl, id, ?_, ?_, ?_, le_rfl⟩
    · unfold onBarrier
      split
      · exact absurd rfl h₂
      · exact absurd rfl (h₃ _)
      · rfl
    · unfold onRef
      split
      · exact absurd rfl (h₄ _ _)
      · rfl
    · unfold lockAsleep
      split
      · exact absurd rfl (h₁ _)
      · rfl

variable [DecidableEq C]

theorem condition_wakes {k : CondWord C} {all : Bool} {pc p : CondPc C}
    (h : (conditionVariable C).wakes pc = some (⟨k, all⟩, p)) : all = false ∧ CondWoke k pc p := by
  cases pc <;> simp only [conditionVariable, Option.some.injEq, Prod.mk.injEq, Wake.mk.injEq,
    reduceCtorEq] at h
  case unlockWake d =>
    obtain ⟨⟨rfl, rfl⟩, rfl⟩ := h
    cases d <;> exact ⟨rfl, rfl, rfl, ⟨rfl, rfl⟩, ⟨rfl, rfl, rfl, rfl, rfl⟩, ⟨rfl, rfl⟩,
      ⟨fun _ => rfl, nofun, nofun⟩, id, trivial⟩
  case notifyWake e s =>
    obtain ⟨⟨rfl, rfl⟩, rfl⟩ := h
    exact ⟨rfl, rfl, rfl, ⟨rfl, rfl⟩, ⟨rfl, rfl, rfl, rfl, rfl⟩, ⟨rfl, rfl⟩,
      ⟨fun h => absurd rfl h, nofun, fun _ hs => by rw [Option.some.inj hs]⟩, id, trivial⟩
  case passWake e x =>
    obtain ⟨⟨rfl, rfl⟩, rfl⟩ := h
    exact ⟨rfl, rfl, rfl, ⟨rfl, rfl⟩, ⟨rfl, rfl, rfl, rfl, rfl⟩, ⟨rfl, rfl⟩,
      ⟨fun h => absurd rfl h, fun _ hs => by rw [Option.some.inj hs], nofun⟩, fun _ => rfl,
      trivial⟩
  case freeWake x =>
    obtain ⟨⟨rfl, rfl⟩, rfl⟩ := h
    exact ⟨rfl, rfl, rfl, ⟨rfl, rfl⟩, ⟨rfl, rfl, rfl, rfl, rfl⟩, ⟨rfl, rfl⟩,
      ⟨fun h => absurd rfl h, fun _ hs => by rw [Option.some.inj hs], nofun⟩, fun _ => rfl,
      trivial⟩

theorem condition_sleepsOn {x : C} {pc : CondPc C} {k : CondWord C}
    (h : (conditionVariable C).sleepsOn x pc = some k) :
    k = .lock ∧ pc.lockAsleep = 1 ∧ pc.released.retrying = 1 ∨
      pc.lockAsleep = 0 ∧ pc.released.retrying = 0 ∧
        (k = .barrier x ∧ pc.onBarrier = true ∨ k = .ref x ∧ pc.onRef = true) := by
  simp only [conditionVariable] at h
  split at h <;> cases h
  · exact .inl ⟨rfl, rfl, rfl⟩
  · exact .inr ⟨rfl, rfl, .inl ⟨rfl, rfl⟩⟩
  · exact .inr ⟨rfl, rfl, .inl ⟨rfl, rfl⟩⟩
  · exact .inr ⟨rfl, rfl, .inr ⟨rfl, rfl⟩⟩

/-- Whoever sleeps on a word is found by a wake of it. -/
theorem sleepsOn_of_asleep {x : C} {pc : CondPc C} :
    (pc.lockAsleep ≠ 0 → (conditionVariable C).sleepsOn x pc = some .lock) ∧
      (pc.onBarrier = true → (conditionVariable C).sleepsOn x pc = some (.barrier x)) ∧
      (pc.onRef = true → (conditionVariable C).sleepsOn x pc = some (.ref x)) := by
  refine ⟨fun h => ?_, fun h => ?_, fun h => ?_⟩
  · unfold lockAsleep at h
    split at h
    · rfl
    · exact absurd rfl h
  · unfold onBarrier at h
    split at h
    · rfl
    · rfl
    · cases h
  · unfold onRef at h
    split at h
    · rfl
    · cases h

/-- A sleeper wakes nobody. -/
theorem awake_of_sleepsOn {x : C} {pc : CondPc C} {k : CondWord C}
    (h : (conditionVariable C).sleepsOn x pc = some k) :
    pc.opens = none ∧ pc.tells = none ∧ pc.lockWaking = 0 ∧ pc.retrying = 0 ∧
      pc.released.opens = none ∧ pc.released.tells = none ∧ pc.released.lockWaking = 0 ∧
      (conditionVariable C).wakes pc = none := by
  simp only [conditionVariable] at h
  split at h <;> cases h <;> exact ⟨rfl, rfl, rfl, rfl, rfl, rfl, rfl, rfl⟩

end Wake

/-! ## What holds in every state -/

variable {C : Type*}

/-- The lock: who sleeps on it does while it says so, or is about to be woken, or another is about
to take it and to say so. -/
structure CondLock [Fintype C] (s : CondState C) : Prop where
  word : s.shared.lock = 0 ∧ s.total holding = 0 ∨
    (s.shared.lock = 1 ∨ s.shared.lock = 2) ∧ s.total holding = 1
  wakes : 0 < s.total lockAsleep →
    s.shared.lock = 2 ∨ 0 < s.total lockWaking ∨ 0 < s.total retrying

/-- The other sleepers, and who may hold the mutex. -/
structure CondSleepers (s : CondState C) : Prop where
  reads : ∀ c, (s.at_ c).Reads
  barrier : ∀ x, (s.at_ x).onBarrier = true →
    s.shared.barrier x ≠ 0 ∨ ∃ c, (s.at_ c).opens = some x
  ref : ∀ x, (s.at_ x).onRef = true → s.shared.ref x ≠ 0 ∨ ∃ c, (s.at_ c).tells = some x
  owner : ∀ c, s.shared.owner = some c → (s.at_ c).mayOwn = true

structure CondOk [Fintype C] [DecidableEq C] (s : CondState C) : Prop where
  inv : CondInv s.shared (fun x => (s.at_ x).stage) fun x => (s.at_ x).signals
  lock : CondLock s
  sleepers : CondSleepers s

/-- A context outside of these functions. -/
theorem outside_same {pc : CondPc C} (h : pc.outside = true) :
    pc.stage = .out ∧ pc.signals = .none ∧ pc.holding = 0 ∧ pc.lockAsleep = 0 ∧
      pc.retrying = 0 ∧ pc.lockWaking = 0 ∧ (pc.opens = none ∧ pc.tells = none) ∧
      (pc.onBarrier = false ∧ pc.onRef = false) ∧ pc.mayOwn = true ∧ pc.Reads := by
  unfold CondPc.outside at h
  split at h
  · exact ⟨rfl, rfl, rfl, rfl, rfl, rfl, ⟨rfl, rfl⟩, ⟨rfl, rfl⟩, rfl, trivial⟩
  · exact ⟨rfl, rfl, rfl, rfl, rfl, rfl, ⟨rfl, rfl⟩, ⟨rfl, rfl⟩, rfl, trivial⟩
  · cases h

section Runs

variable [DecidableEq C] {s t : CondState C} {c : C}

/-- What a context that goes elsewhere is to lists and nodes. -/
theorem put_comp {β : Type*} (f : CondPc C → β) (w : Cond C × CondPc C) :
    (fun x => f ((s.put c w).at_ x)) = Function.update (fun x => f (s.at_ x)) c (f w.2) := by
  funext x
  by_cases hx : x = c
  · subst hx
    rw [Parked.put_at_self, Function.update_self]
  · rw [s.put_at_of_ne hx, Function.update_of_ne hx]

theorem CondSleepers.put (h : CondSleepers s) {w : Cond C × CondPc C}
    (hm : CondSleepMove c s.shared (s.at_ c) w.1 w.2) : CondSleepers (s.put c w) := by
  -- a wake that is on its way is made by another context
  have hopens : ∀ x, (∃ d, (s.at_ d).opens = some x) → ∃ d, ((s.put c w).at_ d).opens = some x := by
    rintro x ⟨d, hd⟩
    have hdc : d ≠ c := fun heq => by
      rw [heq, hm.awake.1] at hd
      cases hd
    exact ⟨d, by rw [s.put_at_of_ne hdc]; exact hd⟩
  have htells : ∀ x, (∃ d, (s.at_ d).tells = some x) → ∃ d, ((s.put c w).at_ d).tells = some x := by
    rintro x ⟨d, hd⟩
    have hdc : d ≠ c := fun heq => by
      rw [heq, hm.awake.2] at hd
      cases hd
    exact ⟨d, by rw [s.put_at_of_ne hdc]; exact hd⟩
  refine ⟨fun x => ?_, fun x hx => ?_, fun x hx => ?_, fun x hx => ?_⟩
  · by_cases hxc : x = c
    · subst hxc
      rw [Parked.put_at_self]
      exact hm.reads
    · rw [s.put_at_of_ne hxc]
      exact h.reads x
  · by_cases hxc : x = c
    · subst hxc
      rw [Parked.put_at_self] at hx
      exact .inl (hm.onBarrier hx)
    · rw [s.put_at_of_ne hxc] at hx
      by_cases hzero : w.1.barrier x = 0
      · rcases hm.barrier x hxc hzero with hbefore | hopen
        · exact .inr (hopens x ((h.barrier x hx).resolve_left fun hne => hne hbefore))
        · exact .inr ⟨c, by rw [Parked.put_at_self]; exact hopen⟩
      · exact .inl hzero
  · by_cases hxc : x = c
    · subst hxc
      rw [Parked.put_at_self] at hx
      exact .inl (hm.onRef hx)
    · rw [s.put_at_of_ne hxc] at hx
      by_cases hzero : w.1.ref x = 0
      · rcases hm.ref x hxc hzero with hbefore | htell
        · exact .inr (htells x ((h.ref x hx).resolve_left fun hne => hne hbefore))
        · exact .inr ⟨c, by rw [Parked.put_at_self]; exact htell⟩
      · exact .inl hzero
  · rcases hm.owner x hx with ⟨rfl, hown⟩ | ⟨hxc, hown⟩
    · rw [Parked.put_at_self]
      exact hown
    · rw [s.put_at_of_ne hxc]
      exact h.owner x hown

variable [Fintype C]

theorem CondLock.put (h : CondLock s) {w : Cond C × CondPc C}
    (hm : CondLockMove s.shared.lock (s.at_ c) w.1.lock w.2) : CondLock (s.put c w) := by
  have hholding := s.total_put holding c w
  have hasleep := s.total_put lockAsleep c w
  have hwaking := s.total_put lockWaking c w
  have hretrying := s.total_put retrying c w
  have hat : (s.at_ c).holding ≤ s.total holding := Parked.le_total c
  rw [hm.awake] at hwaking
  have hshared : (s.put c w).shared.lock = w.1.lock := rfl
  refine ⟨?_, fun hpos => ?_⟩
  · rw [hshared]
    have hword := h.word
    rcases hm.word with ⟨hl, hsame⟩ | ⟨hl, hl', hpc, hpc'⟩ | ⟨hl', hpc, hpc'⟩
    · omega
    · omega
    · omega
  · rw [hshared]
    by_cases htwo : w.1.lock = 2
    · exact .inl htwo
    · have hnot : w.2.lockAsleep = 0 := by
        by_contra h'
        exact htwo (hm.asleep h')
      have hle := hm.retries.resolve_left htwo
      rcases h.wakes (by omega) with hbefore | hwake | hretry
      · have hwake := (hm.wakes hbefore).resolve_left htwo
        exact .inr (.inl (by omega))
      · exact .inr (.inl (by omega))
      · exact .inr (.inr (by omega))

namespace CondOk

/-- While one context holds the lock, no other walks through the list. -/
theorem alone (h : CondOk s) (hc : (s.at_ c).holding = 1) :
    ∀ d ≠ c, ∀ p first, (s.at_ d).signals ≠ .visits p first := by
  intro d hdc p first hd
  have hboth := Parked.add_le_total (f := holding) (s := s) hdc
  have hholds : (s.at_ d).holding = 1 := by
    revert hd
    cases s.at_ d with
    | visit n q f => exact fun _ => rfl
    | unlock k => exact fun _ => rfl
    | crit k => exact fun _ => rfl
    | unlockWake k => cases k <;> exact nofun
    | _ => exact nofun
  have hword := h.lock.word
  omega

/-- A context goes elsewhere, and is what it was to lists and nodes. -/
theorem goto (h : CondOk s) {pc : CondPc C} {own : Option C}
    (hstage : pc.stage = (s.at_ c).stage) (hsignals : pc.signals = (s.at_ c).signals)
    (hlock : CondLockMove s.shared.lock (s.at_ c) s.shared.lock pc)
    (hsleep : CondSleepMove c s.shared (s.at_ c) { s.shared with owner := own } pc) :
    CondOk (s.put c ({ s.shared with owner := own }, pc)) := by
  refine ⟨?_, h.lock.put hlock, h.sleepers.put hsleep⟩
  rw [put_comp CondPc.stage, put_comp CondPc.signals, hstage, hsignals, Function.update_eq_self,
    Function.update_eq_self]
  exact h.inv.same ⟨rfl, rfl, rfl⟩ ⟨rfl, rfl, rfl⟩ ⟨rfl, rfl⟩ ⟨rfl, rfl⟩ rfl

/-- **An act of one context** keeps what holds. -/
theorem act (h : CondOk s) {a : CondAct} {w : Cond C × CondPc C}
    (hw : (s.at_ c).act c s.shared a = some w) : CondOk (s.put c w) := by
  have hown := h.sleepers.owner c
  cases a with
  | step =>
    refine ⟨?_, h.lock.put (condLockMove_next hw), h.sleepers.put ?_⟩
    · rw [put_comp CondPc.stage, put_comp CondPc.signals]
      exact h.inv.next rfl rfl h.alone hw
    · refine condSleepMove_next (h.sleepers.reads c) (fun x hx => ?_) hown hw
      exact (h.inv.groups.first c x (by rw [hx]; rfl)).1.1
  | acquire =>
    simp only [CondPc.act, Option.ite_none_right_eq_some, Option.some.injEq] at hw
    obtain ⟨⟨hout, -⟩, rfl⟩ := hw
    obtain ⟨-, -, -, hasleep, -, hwaking, hawake, hasleep', howns, hreads⟩ := outside_same hout
    refine h.goto rfl rfl (condLockMove_goto rfl hwaking hasleep le_rfl) ⟨hreads, hawake,
      fun _ _ h => .inl h, fun _ _ h => .inl h, fun h => ?_, fun h => ?_,
      fun x hx => .inl ⟨(Option.some.inj hx).symm, howns⟩⟩
    · rw [hasleep'.1] at h
      cases h
    · rw [hasleep'.2] at h
      cases h
  | giveUp =>
    simp only [CondPc.act, Option.ite_none_right_eq_some, Option.some.injEq] at hw
    obtain ⟨⟨hout, -⟩, rfl⟩ := hw
    obtain ⟨-, -, -, hasleep, -, hwaking, hawake, hasleep', -, hreads⟩ := outside_same hout
    refine h.goto rfl rfl (condLockMove_goto rfl hwaking hasleep le_rfl) ⟨hreads, hawake,
      fun _ _ h => .inl h, fun _ _ h => .inl h, fun h => ?_, fun h => ?_, nofun⟩
    · rw [hasleep'.1] at h
      cases h
    · rw [hasleep'.2] at h
      cases h
  | wait =>
    simp only [CondPc.act, Option.ite_none_right_eq_some, Option.some.injEq] at hw
    obtain ⟨⟨hout, -⟩, rfl⟩ := hw
    obtain ⟨hst, hsg, hholding, -, hretrying, hwaking, hawake, -⟩ := outside_same hout
    exact h.goto hst.symm hsg.symm (condLockMove_goto hholding.symm hwaking rfl hretrying.le)
      (condSleepMove_goto ⟨rfl, rfl, rfl⟩ trivial hawake ⟨rfl, rfl⟩ fun _ => rfl)
  | signal n =>
    simp only [CondPc.act, Option.ite_none_right_eq_some, Option.some.injEq] at hw
    obtain ⟨hout, rfl⟩ := hw
    obtain ⟨hst, hsg, hholding, -, hretrying, hwaking, hawake, -⟩ := outside_same hout
    exact h.goto hst.symm hsg.symm (condLockMove_goto hholding.symm hwaking rfl hretrying.le)
      (condSleepMove_goto ⟨rfl, rfl, rfl⟩ trivial hawake ⟨rfl, rfl⟩ fun _ => rfl)
  | spurious =>
    simp only [CondPc.act, Option.ite_none_right_eq_some, Option.some.injEq] at hw
    obtain ⟨hasleep, rfl⟩ := hw
    obtain ⟨hst, hsg, hholding, howns, hreads, hbarrier, href, hlock, hretrying⟩ :=
      released_same (s.at_ c)
    obtain ⟨hopens, htells, hwaking⟩ : (s.at_ c).opens = none ∧ (s.at_ c).tells = none ∧
        (s.at_ c).lockWaking = 0 := by
      revert hasleep
      cases s.at_ c <;> first | exact fun _ => ⟨rfl, rfl, rfl⟩ | exact nofun
    refine h.goto hst hsg (condLockMove_goto hholding hwaking hlock hretrying)
      (condSleepMove_goto ⟨rfl, rfl, rfl⟩ (hreads (h.sleepers.reads c)) ⟨hopens, htells⟩
        ⟨hbarrier, href⟩ fun ho => ?_)
    rw [howns]
    exact hown ho
  | expired =>
    cases hpc : s.at_ c <;> rw [hpc] at hw hown <;> simp only [CondPc.act, reduceCtorEq] at hw
    all_goals
      obtain rfl := Option.some.inj hw
      refine h.goto (by rw [hpc]; rfl) (by rw [hpc]; rfl) ?_ ?_
      · rw [hpc]
        exact condLockMove_goto rfl rfl rfl le_rfl
      · rw [hpc]
        exact condSleepMove_goto ⟨rfl, rfl, rfl⟩ trivial ⟨rfl, rfl⟩ ⟨rfl, rfl⟩ hown
  | cancelled =>
    cases hpc : s.at_ c <;> rw [hpc] at hw hown <;> simp only [CondPc.act, reduceCtorEq] at hw
    obtain rfl := Option.some.inj hw
    refine h.goto (by rw [hpc]; rfl) (by rw [hpc]; rfl) ?_ ?_
    · rw [hpc]
      exact condLockMove_goto rfl rfl rfl le_rfl
    · rw [hpc]
      exact condSleepMove_goto ⟨rfl, rfl, rfl⟩ trivial ⟨rfl, rfl⟩ ⟨rfl, rfl⟩ hown

/-- Contexts that are woken or go on after a wake, and are what they were. -/
theorem woke (h : CondOk s) (hshared : t.shared = s.shared)
    (hstage : ∀ x, (t.at_ x).stage = (s.at_ x).stage)
    (hsignals : ∀ x, (t.at_ x).signals = (s.at_ x).signals) (hlock : CondLock t)
    (hsleepers : CondSleepers t) : CondOk t := by
  refine ⟨?_, hlock, hsleepers⟩
  rw [hshared, funext hstage, funext hsignals]
  exact h.inv

/-- A wake that finds nobody. -/
theorem wakeNone (h : CondOk s) {k : CondWord C} {p : CondPc C} (hw : CondWoke k (s.at_ c) p)
    (hnone : ∀ y, (conditionVariable C).sleepsOn y (s.at_ y) ≠ some k) : CondOk (s.goto c p) := by
  have hother : ∀ x, x ≠ c → (s.goto c p).at_ x = s.at_ x := fun x hx => s.goto_at_of_ne hx p
  have hat : (s.goto c p).at_ c = p := s.goto_at_self c p
  refine h.woke rfl (fun x => ?_) (fun x => ?_) ⟨?_, fun hpos => ?_⟩ ⟨fun x => ?_, fun x hx => ?_,
    fun x hx => ?_, fun x hx => ?_⟩
  · by_cases hx : x = c
    · rw [hx, hat, hw.stage]
    · rw [hother x hx]
  · by_cases hx : x = c
    · rw [hx, hat, hw.signals]
    · rw [hother x hx]
  · have hholding := s.total_goto holding c p
    rw [hw.holding.1, hw.holding.2] at hholding
    have hword := h.lock.word
    rw [Parked.goto_shared]
    omega
  · have hasleep := s.total_goto lockAsleep c p
    have hwaking := s.total_goto lockWaking c p
    have hretrying := s.total_goto retrying c p
    obtain ⟨h₁, h₂, h₃, h₄, h₅⟩ := hw.lock
    rw [h₁, h₂] at hasleep
    rw [h₃, h₄] at hretrying
    rw [h₅] at hwaking
    have hbefore := h.lock.wakes (by omega)
    have hnot : (s.at_ c).lockWaking = 0 := by
      by_contra hwakes
      -- somebody sleeps on the lock, and this is a wake of it
      obtain ⟨y, hy⟩ := Parked.exists_of_total_pos (f := lockAsleep) (s := s) (by omega)
      exact hnone y (hw.wakes.1 hwakes ▸ sleepsOn_of_asleep.1 hy.ne')
    rw [Parked.goto_shared]
    omega
  · by_cases hx : x = c
    · rw [hx, hat]
      exact hw.reads
    · rw [hother x hx]
      exact h.sleepers.reads x
  · have hxc : x ≠ c := fun heq => by
      rw [heq, hat, hw.asleep.1] at hx
      cases hx
    rw [hother x hxc] at hx
    refine (h.sleepers.barrier x hx).imp_right ?_
    rintro ⟨d, hd⟩
    have hdc : d ≠ c := fun heq =>
      hnone x (hw.wakes.2.1 x (heq ▸ hd) ▸ sleepsOn_of_asleep.2.1 hx)
    exact ⟨d, by rw [hother d hdc]; exact hd⟩
  · have hxc : x ≠ c := fun heq => by
      rw [heq, hat, hw.asleep.2] at hx
      cases hx
    rw [hother x hxc] at hx
    refine (h.sleepers.ref x hx).imp_right ?_
    rintro ⟨d, hd⟩
    have hdc : d ≠ c := fun heq =>
      hnone x (hw.wakes.2.2 x (heq ▸ hd) ▸ sleepsOn_of_asleep.2.2 hx)
    exact ⟨d, by rw [hother d hdc]; exact hd⟩
  · have hown := h.sleepers.owner x hx
    by_cases hxc : x = c
    · subst hxc
      rw [hat]
      exact hw.owns hown
    · rw [hother x hxc]
      exact hown

/-- A wake that finds a sleeper. -/
theorem wakeOne (h : CondOk s) {k : CondWord C} {p : CondPc C} {y : C}
    (hw : CondWoke k (s.at_ c) p) (hy : (conditionVariable C).sleepsOn y (s.at_ y) = some k)
    (hne : y ≠ c) : CondOk ((s.goto y (s.at_ y).released).goto c p) := by
  obtain ⟨hst, hsg, hholding, howns, hreads, hbarrier, href, hlock, -⟩ := released_same (s.at_ y)
  obtain ⟨hyopens, hytells, hywaking, hyretrying, -, -, hywaking', -⟩ := awake_of_sleepsOn hy
  have hmid : (s.goto y (s.at_ y).released).at_ c = s.at_ c := s.goto_at_of_ne hne.symm _
  have hself : ((s.goto y (s.at_ y).released).goto c p).at_ y = (s.at_ y).released := by
    rw [Parked.goto_at_of_ne _ hne, Parked.goto_at_self]
  have hat : ((s.goto y (s.at_ y).released).goto c p).at_ c = p := Parked.goto_at_self ..
  have hother : ∀ x, x ≠ c → x ≠ y →
      ((s.goto y (s.at_ y).released).goto c p).at_ x = s.at_ x := fun x hx hx' => by
    rw [Parked.goto_at_of_ne _ hx, Parked.goto_at_of_ne _ hx']
  have htotal : ∀ f : CondPc C → ℕ, ((s.goto y (s.at_ y).released).goto c p).total f +
      f (s.at_ c) + f (s.at_ y) = s.total f + f p + f (s.at_ y).released := by
    intro f
    have h₁ := s.total_goto f y (s.at_ y).released
    have h₂ := (s.goto y (s.at_ y).released).total_goto f c p
    rw [hmid] at h₂
    omega
  refine h.woke rfl (fun x => ?_) (fun x => ?_) ⟨?_, fun hpos => ?_⟩ ⟨fun x => ?_, fun x hx => ?_,
    fun x hx => ?_, fun x hx => ?_⟩
  · by_cases hxc : x = c
    · rw [hxc, hat, hw.stage]
    · by_cases hxy : x = y
      · rw [hxy, hself, hst]
      · rw [hother x hxc hxy]
  · by_cases hxc : x = c
    · rw [hxc, hat, hw.signals]
    · by_cases hxy : x = y
      · rw [hxy, hself, hsg]
      · rw [hother x hxc hxy]
  · have hsum := htotal holding
    rw [hw.holding.1, hw.holding.2, hholding] at hsum
    have hword := h.lock.word
    rw [Parked.goto_shared, Parked.goto_shared]
    omega
  · have hasleep := htotal lockAsleep
    have hwaking := htotal lockWaking
    have hretrying := htotal retrying
    obtain ⟨h₁, h₂, h₃, h₄, h₅⟩ := hw.lock
    rw [h₁, h₂, hlock] at hasleep
    rw [h₃, h₄, hyretrying] at hretrying
    rw [h₅, hywaking, hywaking'] at hwaking
    rw [Parked.goto_shared, Parked.goto_shared]
    have hbefore := h.lock.wakes (by omega)
    rcases condition_sleepsOn hy with ⟨-, hone, htries⟩ | ⟨hzero, htries, hk⟩
    · -- the sleeper itself will take the lock
      omega
    · have hnot : (s.at_ c).lockWaking = 0 := by
        by_contra hwakes
        rcases hk with ⟨hk, -⟩ | ⟨hk, -⟩
        · exact absurd (hk.symm.trans (hw.wakes.1 hwakes)) nofun
        · exact absurd (hk.symm.trans (hw.wakes.1 hwakes)) nofun
      omega
  · by_cases hxc : x = c
    · rw [hxc, hat]
      exact hw.reads
    · by_cases hxy : x = y
      · rw [hxy, hself]
        exact hreads (h.sleepers.reads y)
      · rw [hother x hxc hxy]
        exact h.sleepers.reads x
  · have hxc : x ≠ c := fun heq => by
      rw [heq, hat, hw.asleep.1] at hx
      cases hx
    have hxy : x ≠ y := fun heq => by
      rw [heq, hself, hbarrier] at hx
      cases hx
    rw [hother x hxc hxy] at hx
    refine (h.sleepers.barrier x hx).imp_right ?_
    rintro ⟨d, hd⟩
    have hdc : d ≠ c := by
      rintro rfl
      -- the wake of this barrier found another sleeper
      rcases condition_sleepsOn hy with ⟨hk, -⟩ | ⟨-, -, ⟨hk, -⟩ | ⟨hk, -⟩⟩
      · exact absurd (hk.symm.trans (hw.wakes.2.1 x hd)) nofun
      · exact hxy (CondWord.barrier.inj (hk.symm.trans (hw.wakes.2.1 x hd))).symm
      · exact absurd (hk.symm.trans (hw.wakes.2.1 x hd)) nofun
    have hdy : d ≠ y := fun heq => by
      rw [heq, hyopens] at hd
      cases hd
    exact ⟨d, by rw [hother d hdc hdy]; exact hd⟩
  · have hxc : x ≠ c := fun heq => by
      rw [heq, hat, hw.asleep.2] at hx
      cases hx
    have hxy : x ≠ y := fun heq => by
      rw [heq, hself, href] at hx
      cases hx
    rw [hother x hxc hxy] at hx
    refine (h.sleepers.ref x hx).imp_right ?_
    rintro ⟨d, hd⟩
    have hdc : d ≠ c := by
      rintro rfl
      rcases condition_sleepsOn hy with ⟨hk, -⟩ | ⟨-, -, ⟨hk, -⟩ | ⟨hk, -⟩⟩
      · exact absurd (hk.symm.trans (hw.wakes.2.2 x hd)) nofun
      · exact absurd (hk.symm.trans (hw.wakes.2.2 x hd)) nofun
      · exact hxy (CondWord.ref.inj (hk.symm.trans (hw.wakes.2.2 x hd))).symm
    have hdy : d ≠ y := fun heq => by
      rw [heq, hytells] at hd
      cases hd
    exact ⟨d, by rw [hother d hdc hdy]; exact hd⟩
  · have hown := h.sleepers.owner x hx
    by_cases hxc : x = c
    · subst hxc
      rw [hat]
      exact hw.owns hown
    · by_cases hxy : x = y
      · rw [hxy, hself, howns, ← hxy]
        exact hown
      · rw [hother x hxc hxy]
        exact hown

theorem stepped (h : CondOk s) (ht : (conditionVariable C).Stepped s t) : CondOk t := by
  cases ht with
  | act c a hw => exact h.act hw
  | wakeNone c hw hnone => exact h.wakeNone (condition_wakes hw).2 hnone
  | wakeOne c y hw hy hne => exact h.wakeOne (condition_wakes hw).2 hy hne
  | wakeAll c hw => cases (condition_wakes hw).1

theorem start : CondOk (CondState.start : CondState C) := by
  have hnone : ∀ f : CondPc C → ℕ, f .idle = 0 → (CondState.start : CondState C).total f = 0 :=
    fun f hf => Parked.total_eq_zero.mpr fun _ => hf
  refine ⟨⟨?_, ?_, ?_, ?_⟩, ⟨.inl ⟨rfl, hnone holding rfl⟩, fun h => ?_⟩, ?_⟩
  · exact ⟨List.nodup_nil, List.nodup_nil, nofun, fun x => by simp [CondState.start, CondPc.stage,
      CondStage.linked], rfl, rfl, ⟨trivial, trivial⟩, nofun, nofun⟩
  · exact ⟨fun _ => nofun, fun _ h => h.elim nofun nofun, fun _ h => h.elim nofun nofun, nofun,
      nofun⟩
  · refine ⟨fun g hg => ?_, fun _ _ _ => nofun, fun _ => rfl, fun _ _ => nofun, fun _ _ _ => nofun⟩
    rcases List.mem_cons.mp hg with rfl | hg
    · exact GroupOk.nil
    · cases hg
  · exact ⟨fun _ => nofun, fun _ _ h => h.elim nofun nofun⟩
  · rw [hnone lockAsleep rfl] at h
    exact absurd h (Nat.lt_irrefl 0)
  · exact ⟨fun _ => trivial, fun _ => nofun, fun _ => nofun, fun _ => nofun⟩

/-- **What holds in every state of every run.** -/
theorem of_reachable (h : Reachable (conditionVariable C).step CondState.start s) : CondOk s :=
  Parking.invariant start (fun _ _ hu hv => hu.stepped hv) h

end CondOk

end Runs

/-! ## Where nobody can go on -/

/-- The context can neither take a step nor wake another. -/
def CondPc.Stuck (o : Cond C) (pc : CondPc C) : Prop :=
  pc.outside = true ∨ pc.lockAsleep = 1 ∨ pc.onBarrier = true ∨ pc.onRef = true ∨
    (∃ e signaled, pc = .relock e signaled) ∧ ∃ d, o.owner = some d

section Stuck

variable {o : Cond C} {c : C} {pc : CondPc C}

/-- A context that is stuck has not the lock, and is to wake nobody. -/
theorem CondPc.Stuck.quiet (h : pc.Stuck o) :
    pc.holding = 0 ∧ pc.lockWaking = 0 ∧ pc.retrying = 0 ∧ pc.opens = none ∧ pc.tells = none := by
  rcases h with hout | hlock | hbarrier | href | ⟨⟨e, signaled, rfl⟩, -⟩
  · obtain ⟨-, -, hholding, -, hretrying, hwaking, hawake, -⟩ := outside_same hout
    exact ⟨hholding, hwaking, hretrying, hawake⟩
  · unfold lockAsleep at hlock
    split at hlock
    · exact ⟨rfl, rfl, rfl, rfl, rfl⟩
    · cases hlock
  · unfold onBarrier at hbarrier
    split at hbarrier
    · exact ⟨rfl, rfl, rfl, rfl, rfl⟩
    · exact ⟨rfl, rfl, rfl, rfl, rfl⟩
    · cases hbarrier
  · unfold onRef at href
    split at href
    · exact ⟨rfl, rfl, rfl, rfl, rfl⟩
    · cases href
  · exact ⟨rfl, rfl, rfl, rfl, rfl⟩

/-- Off the lock, it is leaving no list, and signals only while it waits for those that are. -/
theorem CondPc.Stuck.stage (h : pc.Stuck o) (hlock : pc.lockAsleep = 0) :
    (pc.signals = .none ∨ pc.onRef = true ∧ pc.signals.counting = true) ∧
      pc.stage ≠ .leaves ∧ pc.stage ≠ .left := by
  rcases h with hout | hasleep | hbarrier | href | ⟨⟨e, signaled, rfl⟩, -⟩
  · obtain ⟨hst, hsg, -⟩ := outside_same hout
    rw [hst]
    exact ⟨.inl hsg, nofun, nofun⟩
  · rw [hlock] at hasleep
    cases hasleep
  · unfold onBarrier at hbarrier
    split at hbarrier
    · exact ⟨.inl rfl, nofun, nofun⟩
    · exact ⟨.inl rfl, nofun, nofun⟩
    · cases hbarrier
  · unfold onRef at href
    split at href
    · exact ⟨.inr ⟨rfl, rfl⟩, nofun, nofun⟩
    · cases href
  · cases signaled <;> exact ⟨.inl rfl, nofun, nofun⟩

variable [DecidableEq C]

/-- Where a context is that neither steps nor wakes. -/
theorem stuck_of_next (hnext : pc.next o c = none)
    (hwakes : (conditionVariable C).wakes pc = none) : pc.Stuck o := by
  cases pc with
  | idle => exact .inl rfl
  | returned e => exact .inl rfl
  | parked => exact .inr (.inr (.inl rfl))
  | lock k a =>
    simp only [CondPc.next, ite_eq_left_iff, reduceCtorEq, imp_false, not_not] at hnext
    rw [hnext]
    exact .inr (.inl rfl)
  | barrier e a =>
    simp only [CondPc.next, ite_eq_left_iff, reduceCtorEq, imp_false, not_not] at hnext
    rw [hnext]
    exact .inr (.inr (.inl rfl))
  | watching first cur a =>
    simp only [CondPc.next, ite_eq_left_iff, reduceCtorEq, imp_false, not_not] at hnext
    rw [hnext]
    exact .inr (.inr (.inr (.inl rfl)))
  | relock e signaled =>
    simp only [CondPc.next, ite_eq_right_iff, reduceCtorEq, imp_false] at hnext
    exact .inr (.inr (.inr (.inr ⟨⟨e, signaled, rfl⟩, Option.ne_none_iff_exists'.mp hnext⟩)))
  | crit k => cases k <;> cases hnext
  | visit n p first => cases p <;> cases hnext
  | free first => cases first <;> cases hnext
  | unlockWake d => cases hwakes
  | notifyWake e t => cases hwakes
  | passWake e x => cases hwakes
  | freeWake x => cases hwakes
  | _ => cases hnext

variable [Fintype C]

/-- A context that is about to wake can. -/
theorem exists_wake {s : CondState C} {k : CondWord C} {p : CondPc C}
    (hw : (conditionVariable C).wakes (s.at_ c) = some (⟨k, false⟩, p)) :
    ∃ x t, (conditionVariable C).step s (.wake c x) = some t := by
  by_cases hnone : ∀ y, (conditionVariable C).sleepsOn y (s.at_ y) ≠ some k
  · exact ⟨none, s.goto c p, by simp only [Parking.step, hw]; exact if_pos hnone⟩
  · push Not at hnone
    obtain ⟨y, hy⟩ := hnone
    have hne : y ≠ c := by
      rintro rfl
      rw [(awake_of_sleepsOn hy).2.2.2.2.2.2.2] at hw
      cases hw
    exact ⟨some y, _, by simp only [Parking.step, hw]; exact if_pos ⟨hy, hne⟩⟩

/-- Either some context goes on, or each is stuck. -/
theorem stuck_of_no_step {s : CondState C}
    (hstep : ∀ t, (conditionVariable C).step s (.act c .step) ≠ some t)
    (hwake : ∀ x t, (conditionVariable C).step s (.wake c x) ≠ some t) :
    (s.at_ c).Stuck s.shared := by
  refine stuck_of_next (c := c) ?_ ?_
  · cases hn : (s.at_ c).next s.shared c with
    | none => rfl
    | some w =>
      refine absurd ?_ (hstep (s.put c w))
      show ((s.at_ c).next s.shared c).map (s.put c) = _
      rw [hn]
      rfl
  · rcases hw : (conditionVariable C).wakes (s.at_ c) with - | ⟨⟨k, all⟩, p⟩
    · rfl
    · obtain ⟨rfl, -⟩ := condition_wakes hw
      obtain ⟨x, t, ht⟩ := exists_wake hw
      exact absurd ht (hwake x t)

end Stuck

namespace CondOk

variable [DecidableEq C] [Fintype C] {s : CondState C} {x : C}

/-- Nobody sleeps on the lock where all are stuck: it would be held, or taken, or woken on. -/
theorem lock_of_stuck (h : CondOk s) (hstuck : ∀ d, (s.at_ d).Stuck s.shared) (d : C) :
    (s.at_ d).lockAsleep = 0 := by
  have hholding : s.total holding = 0 := Parked.total_eq_zero.mpr fun y => (hstuck y).quiet.1
  have hwaking : s.total lockWaking = 0 := Parked.total_eq_zero.mpr fun y => (hstuck y).quiet.2.1
  have hretrying : s.total retrying = 0 :=
    Parked.total_eq_zero.mpr fun y => (hstuck y).quiet.2.2.1
  have hle := Parked.le_total (s := s) (f := lockAsleep) d
  by_contra hne
  have hword := h.lock.word
  have hwakes := h.lock.wakes (by omega)
  omega

/-- Nobody is about to signal: who waits for others to leave waits for one that can go on. -/
theorem signals_of_stuck (h : CondOk s) (hstuck : ∀ d, (s.at_ d).Stuck s.shared) (d : C) :
    (s.at_ d).signals = .none := by
  have hlock := h.lock_of_stuck hstuck
  obtain hnone | ⟨href, hcounting⟩ := ((hstuck d).stage (hlock d)).1
  · exact hnone
  · have hzero : s.shared.ref d = 0 := by
      rw [h.inv.refs.ref d hcounting]
      refine Finset.card_eq_zero.mpr (Finset.filter_eq_empty_iff.mpr fun y _ hy => ?_)
      obtain ⟨hleaves, hleft⟩ := ((hstuck y).stage (hlock y)).2
      exact hy.1.elim hleaves hleft
    obtain ⟨y, hy⟩ := (h.sleepers.ref d href).resolve_left fun hne => hne hzero
    rw [(hstuck y).quiet.2.2.2.2] at hy
    cases hy

/-- Who sleeps on a barrier where all are stuck sleeps on one that is closed. -/
theorem barrier_of_stuck (h : CondOk s) (hstuck : ∀ d, (s.at_ d).Stuck s.shared)
    (hx : (s.at_ x).onBarrier = true) : s.shared.barrier x ≠ 0 := by
  refine (h.sleepers.barrier x hx).resolve_right ?_
  rintro ⟨y, hy⟩
  rw [(hstuck y).quiet.2.2.2.1] at hy
  cases hy

/-- **The first of a signaled group waits for the mutex.** -/
theorem owned_of_signaled (h : CondOk s) (hstuck : ∀ d, (s.at_ d).Stuck s.shared)
    (hlinked : (s.at_ x).stage.linked = true) (hsignaled : s.shared.state x = .signaled) :
    ∃ d, s.shared.owner = some d := by
  have hsignals := h.signals_of_stuck hstuck
  have hvisited : s.shared.visited = [] := h.inv.groups.unvisited fun d p first hd =>
    nomatch (hsignals d).symm.trans hd
  have hgroup : ∃ g ∈ s.shared.groups, x ∈ g := by
    refine ((h.inv.lists.linked x).mp hlinked).resolve_left fun hmem => ?_
    rw [hvisited, List.nil_append] at hmem
    exact (h.inv.nodes.queue x hmem).1 hsignaled
  obtain ⟨g, hg, hxg⟩ := hgroup
  have hok := h.inv.groups.groups g (List.mem_cons_of_mem _ hg)
  obtain ⟨y, hy⟩ : ∃ y, s.shared.oldest g = some y := by
    refine Option.isSome_iff_exists.mp (List.find?_isSome.mpr ⟨x, hxg, ?_⟩)
    simpa using hsignaled
  -- no signaler is left to open its barrier, so it is open
  have hheld : ¬HeldBack s.shared (fun z => (s.at_ z).stage) y := by
    intro hheld
    obtain ⟨d, hd⟩ := hok.pending y hy hheld
    rw [hsignals d] at hd
    cases hd
  obtain ⟨hyg, -⟩ := Cond.state_of_oldest hy
  obtain ⟨t, rfl, -⟩ := hok.of_not_held hyg hheld
  have hylinked : (s.at_ y).stage.linked = true :=
    (h.inv.lists.linked y).mpr (.inr ⟨_, hg, List.mem_cons_self⟩)
  have hnot : (s.at_ y).onBarrier = true → False := fun hbarrier => by
    rcases ((hok.first y rfl).resolve_left hheld).1 with hopen | htook
    · exact h.barrier_of_stuck hstuck hbarrier hopen
    · revert hbarrier htook
      cases s.at_ y with
      | relock e signaled => exact fun hb => nomatch hb
      | pass e => exact fun hb => nomatch hb
      | parked => exact fun _ ht => nomatch ht
      | barrier e a => exact fun _ ht => nomatch ht
      | _ => exact fun hb => nomatch hb
  rcases hstuck y with hout | hasleep | hbarrier | href | ⟨-, hown⟩
  · rw [(outside_same hout).1] at hylinked
    cases hylinked
  · rw [h.lock_of_stuck hstuck y] at hasleep
    cases hasleep
  · exact (hnot hbarrier).elim
  · obtain hnone | ⟨-, hcounting⟩ := ((hstuck y).stage (h.lock_of_stuck hstuck y)).1
    · rw [show (s.at_ y).onRef = false from ?_] at href
      · cases href
      · revert hnone
        cases s.at_ y <;> first | exact fun _ => rfl | exact nofun
    · rw [hsignals y] at hcounting
      cases hcounting
  · exact hown

/-- Who holds the mutex where all are stuck is out of these functions. -/
theorem outside_of_owner (h : CondOk s) (hstuck : ∀ d, (s.at_ d).Stuck s.shared)
    (hx : s.shared.owner = some x) : (s.at_ x).outside = true := by
  have hown := h.sleepers.owner x hx
  have hsignals := h.signals_of_stuck hstuck x
  have hlock := h.lock_of_stuck hstuck x
  rcases hstuck x with hout | hasleep | hbarrier | href | ⟨⟨e, signaled, hpc⟩, -⟩
  · exact hout
  · rw [hlock] at hasleep
    cases hasleep
  · revert hown hbarrier
    cases s.at_ x <;> exact nofun
  · revert hsignals href
    cases s.at_ x <;> exact nofun
  · rw [hpc] at hown
    cases hown

end CondOk

/-! ## Results -/

section Results

variable [DecidableEq C] [Fintype C] {s : CondState C}

/-- **No node is used after its context has returned.** Whatever node of another context a step
reads or writes is in a list still, and a context that tells a signaler tells one that still
counts. -/
theorem cond_uses_live_nodes (h : Reachable (conditionVariable C).step CondState.start s) (c : C) :
    (∀ x ∈ (s.at_ c).touches s.shared c, (s.at_ x).stage.linked = true) ∧
      ∀ e t, s.at_ c = .notify e → s.shared.notify c = some t →
        (s.at_ t).signals.counting = true := by
  have hok := CondOk.of_reachable h
  have hlist : ∀ x ∈ s.shared.visited ++ s.shared.queue, (s.at_ x).stage.linked = true :=
    fun x hx => (hok.inv.lists.linked x).mpr (.inl hx)
  have hgroup : ∀ g ∈ s.shared.groups, ∀ x ∈ g, (s.at_ x).stage.linked = true :=
    fun g hg x hx => (hok.inv.lists.linked x).mpr (.inr ⟨g, hg, hx⟩)
  refine ⟨fun x hx => ?_, fun e t hc ht => ?_⟩
  · cases hpc : s.at_ c with
    | crit k =>
      rw [hpc] at hx
      cases k with
      | enter =>
        simp only [CondPc.touches] at hx
        split_ifs at hx
        · cases hx
        · rw [hok.inv.lists.head] at hx
          exact hlist x (List.mem_of_mem_getLast? (Option.mem_toList.mp hx))
      | unlink e =>
        simp only [CondPc.touches, List.mem_append] at hx
        have hst : (s.at_ c).stage = .leaves := by
          rw [hpc]
          rfl
        have hlinked : (s.at_ c).stage.linked = true := by
          rw [hst]
          rfl
        rcases (hok.inv.lists.linked c).mp hlinked with hmem | ⟨g, hg, hmem⟩
        · refine hlist x ?_
          rcases hx with hx | hx
          · split_ifs at hx
            · cases hx
            · exact hok.inv.lists.doubly.mem_of_prev hmem (Option.mem_toList.mp hx)
          · split_ifs at hx
            · cases hx
            · exact hok.inv.lists.doubly.mem_of_next hmem (Option.mem_toList.mp hx)
        · have hdoubly : Chaining.Doubly s.shared.prev s.shared.next g :=
            ⟨hok.inv.lists.links g hg,
              hok.inv.lists.back g hg c hmem (hok.inv.nodes.leaves c (.inl hst))⟩
          refine hgroup g hg x ?_
          rcases hx with hx | hx
          · split_ifs at hx
            · cases hx
            · exact hdoubly.mem_of_prev hmem (Option.mem_toList.mp hx)
          · split_ifs at hx
            · cases hx
            · exact hdoubly.mem_of_next hmem (Option.mem_toList.mp hx)
      | signal n =>
        rw [show (CondPc.crit (.signal n)).touches s.shared c = [] from rfl] at hx
        cases hx
    | visit n p first =>
      cases p with
      | none =>
        rw [hpc] at hx
        cases hx
      | some y =>
        obtain ⟨q, hq, -, hnext⟩ := hok.inv.at_head (c := c) (x := y) (by
          rw [hpc]
          rfl)
        rw [hpc] at hx
        have hy : y ∈ s.shared.visited ++ s.shared.queue := by simp [hq]
        simp only [CondPc.touches] at hx
        split_ifs at hx
        · rcases List.mem_cons.mp hx with rfl | hx
          · exact hlist x hy
          · rw [hnext] at hx
            exact hlist x (List.mem_append_left _ (List.mem_of_mem_getLast?
              (Option.mem_toList.mp hx)))
        · exact List.mem_singleton.mp hx ▸ hlist y hy
    | pass e =>
      obtain ⟨t, hg, -, hprev⟩ := hok.inv.group_of_took (c := c) (by rw [hpc]; rfl)
      rw [hpc] at hx
      simp only [CondPc.touches] at hx
      rw [hprev] at hx
      exact hgroup _ hg x (List.mem_cons_of_mem c (List.mem_of_mem_head? (Option.mem_toList.mp hx)))
    | free first =>
      rw [hpc] at hx
      have hfirst : first = some x := Option.mem_toList.mp hx
      obtain ⟨-, g, hg, holdest⟩ := hok.inv.groups.first c x (by rw [hpc, hfirst]; rfl)
      have hmem := (Cond.state_of_oldest holdest).1
      rcases List.mem_cons.mp hg with rfl | hg
      · exact hlist x (List.mem_append_left _ hmem)
      · exact hgroup g hg x hmem
    | _ =>
      rw [hpc] at hx
      cases hx
  · refine hok.inv.refs.notify c t (.inr ?_) ht
    rw [hc]
    rfl

/-- `x` waits, and then `y`. -/
def bothWait {C : Type*} (x y : C) : List (ParkMove C CondAct) :=
  .act x .acquire :: .act x .wait :: List.replicate 5 (.act x .step) ++
    .act y .acquire :: .act y .wait :: List.replicate 5 (.act y .step)

/-- A third is about to signal the older of them. -/
def twoWaiters {C : Type*} (x y z : C) : List (ParkMove C CondAct) :=
  bothWait x y ++ .act z (.signal 1) :: List.replicate 2 (.act z .step)

/-- The signaler has what it was to signal, and splits the list between the two. -/
theorem cond_uses_live_nodes_split :
    ∃ s : CondState (Fin 3), Reachable (conditionVariable (Fin 3)).step CondState.start s ∧
      (s.at_ 2).touches s.shared 2 = [1, 0] ∧ (s.at_ 0).stage.linked = true := by
  have hrun : (run (conditionVariable (Fin 3)).step CondState.start
      (twoWaiters 0 1 2 ++ [.act 2 .step])).map (fun s => (s.at_ 2).touches s.shared 2) =
        some [1, 0] := by decide +kernel
  obtain ⟨s, hs, heq⟩ := Option.map_eq_some_iff.mp hrun
  exact ⟨s, ⟨_, hs⟩, heq, (cond_uses_live_nodes ⟨_, hs⟩ 2).1 0 (by rw [heq]; decide)⟩

omit [Fintype C] in
/-- A node is signaled by the walk of a signaler that is at it. -/
theorem visit_of_signaled {o : Cond C} {c x : C} {pc : CondPc C} {a : CondAct}
    {w : Cond C × CondPc C} (hw : pc.act c o a = some w) (hbefore : o.state x ≠ .signaled)
    (hafter : w.1.state x = .signaled) : ∃ n first, pc = .visit n (some x) first := by
  have hsame : w.1.state ≠ o.state := fun heq => hbefore (heq ▸ hafter)
  cases a with
  | acquire =>
    simp only [CondPc.act, Option.ite_none_right_eq_some, Option.some.injEq] at hw
    exact absurd (by rw [← hw.2]) hsame
  | giveUp =>
    simp only [CondPc.act, Option.ite_none_right_eq_some, Option.some.injEq] at hw
    exact absurd (by rw [← hw.2]) hsame
  | wait =>
    simp only [CondPc.act, Option.ite_none_right_eq_some, Option.some.injEq] at hw
    exact absurd (by rw [← hw.2]) hsame
  | signal n =>
    simp only [CondPc.act, Option.ite_none_right_eq_some, Option.some.injEq] at hw
    exact absurd (by rw [← hw.2]) hsame
  | spurious =>
    simp only [CondPc.act, Option.ite_none_right_eq_some, Option.some.injEq] at hw
    exact absurd (by rw [← hw.2]) hsame
  | expired =>
    cases pc <;> simp only [CondPc.act, reduceCtorEq, Option.some.injEq] at hw
    all_goals exact absurd (by rw [← hw]) hsame
  | cancelled =>
    cases pc <;> simp only [CondPc.act, reduceCtorEq, Option.some.injEq] at hw
    exact absurd (by rw [← hw]) hsame
  | step =>
    replace hw : pc.next o c = some w := hw
    cases pc with
    | visit n p first =>
      cases p with
      | none =>
        obtain rfl := Option.some.inj hw
        exact absurd rfl hsame
      | some y =>
        obtain rfl := Option.some.inj hw
        split_ifs at hafter hsame
        · exact absurd rfl hsame
        · replace hafter : Function.update o.state y WaiterState.signaled x = .signaled := hafter
          by_cases hxy : x = y
          · exact ⟨n, first, by rw [hxy]⟩
          · rw [Function.update_of_ne hxy] at hafter
            exact absurd hafter hbefore
        · exact absurd rfl hsame
    | crit k =>
      cases k with
      | enter =>
        obtain rfl := Option.some.inj hw
        replace hafter : Function.update o.state c WaiterState.waiting x = .signaled := hafter
        by_cases hxc : x = c
        · rw [hxc, Function.update_self] at hafter
          cases hafter
        · rw [Function.update_of_ne hxc] at hafter
          exact absurd hafter hbefore
      | unlink e =>
        obtain rfl := Option.some.inj hw
        exact absurd rfl hsame
      | signal n =>
        obtain rfl := Option.some.inj hw
        exact absurd rfl hsame
    | leave e =>
      obtain rfl := Option.some.inj hw
      split_ifs at hafter hsame
      · replace hafter : Function.update o.state c WaiterState.leaving x = .signaled := hafter
        by_cases hxc : x = c
        · rw [hxc, Function.update_self] at hafter
          cases hafter
        · rw [Function.update_of_ne hxc] at hafter
          exact absurd hafter hbefore
      · exact absurd rfl hsame
    | lock k a =>
      simp only [CondPc.next, Option.ite_none_left_eq_some, Option.some.injEq] at hw
      exact absurd (by rw [← hw.2]) hsame
    | barrier e a =>
      simp only [CondPc.next, Option.ite_none_left_eq_some, Option.some.injEq] at hw
      exact absurd (by rw [← hw.2]) hsame
    | watching first cur a =>
      simp only [CondPc.next, Option.ite_none_left_eq_some, Option.some.injEq] at hw
      exact absurd (by rw [← hw.2]) hsame
    | relock e signaled =>
      simp only [CondPc.next, Option.ite_none_right_eq_some, Option.some.injEq] at hw
      exact absurd (by rw [← hw.2]) hsame
    | notify e =>
      obtain rfl := Option.some.inj hw
      split at hsame <;> exact absurd rfl hsame
    | pass e =>
      obtain rfl := Option.some.inj hw
      split at hsame <;> exact absurd rfl hsame
    | free first =>
      cases first <;> cases hw <;> exact absurd rfl hsame
    | _ => cases hw <;> exact absurd rfl hsame

/-- **A signal goes to the oldest that waits.** Where a step signals a node, that node is the first
of the list that waits; and a signaler that comes to the end of the list, whatever it was to signal,
leaves no context waiting that was in it. -/
theorem cond_signals_oldest (h : Reachable (conditionVariable C).step CondState.start s) :
    (∀ (l : ParkMove C CondAct) (t : CondState C) (x : C),
      (conditionVariable C).step s l = some t → s.shared.state x = .waiting →
        t.shared.state x = .signaled →
          (s.shared.visited ++ s.shared.queue).find?
            (fun y => decide (s.shared.state y = .waiting)) = some x) ∧
      ∀ c n first, s.at_ c = .visit n none first →
        ∀ x, (s.at_ x).stage = .waits → s.shared.state x = .signaled := by
  have hok := CondOk.of_reachable h
  have hseen : ∀ g ∈ s.shared.visited :: s.shared.groups, ∀ x ∈ g, s.shared.state x ≠ .waiting :=
    fun g hg => (hok.inv.groups.groups g hg).states
  refine ⟨fun l t x hstep hwaiting hsignaled => ?_, fun c n first hc x hx => ?_⟩
  · have hbefore : s.shared.state x ≠ .signaled := by
      rw [hwaiting]
      exact nofun
    have ht := Parking.step_cases hstep
    cases ht with
    | wakeNone c hw hnone => exact absurd hsignaled hbefore
    | wakeOne c y hw hy hne => exact absurd hsignaled hbefore
    | wakeAll c hw => exact absurd hsignaled hbefore
    | act c a hw =>
      obtain ⟨n, first, hpc⟩ := visit_of_signaled hw hbefore hsignaled
      obtain ⟨q, hq, -⟩ := hok.inv.at_head (c := c) (x := x) (by
        rw [hpc]
        rfl)
      have hnone : s.shared.visited.find? (fun y => decide (s.shared.state y = .waiting)) =
          none := by
        refine List.find?_eq_none.mpr fun y hy => ?_
        simpa using hseen _ List.mem_cons_self y hy
      rw [hq, List.find?_append, hnone, List.find?_cons_of_pos (by simpa using hwaiting)]
      rfl
  · obtain ⟨hp, -⟩ := hok.inv.groups.visits c none first (by rw [hc]; rfl)
    have hqueue : s.shared.queue = [] := List.head?_eq_none_iff.mp hp.symm
    have hlinked : (s.at_ x).stage.linked = true := by
      rw [hx]
      rfl
    have hnot : s.shared.state x ≠ .waiting := by
      rcases (hok.inv.lists.linked x).mp hlinked with hmem | ⟨g, hg, hmem⟩
      · rw [hqueue, List.append_nil] at hmem
        exact hseen _ List.mem_cons_self x hmem
      · exact hseen g (List.mem_cons_of_mem _ hg) x hmem
    cases hstate : s.shared.state x with
    | waiting => exact absurd hstate hnot
    | signaled => rfl
    | leaving => exact absurd hstate (hok.inv.nodes.waits x hx)

/-- The older of two is signaled. -/
theorem cond_signals_oldest_two :
    ∃ s t : CondState (Fin 3), Reachable (conditionVariable (Fin 3)).step CondState.start s ∧
      (conditionVariable (Fin 3)).step s (.act 2 .step) = some t ∧ t.shared.state 0 = .signaled ∧
        (s.shared.visited ++ s.shared.queue).find?
          (fun y => decide (s.shared.state y = .waiting)) = some 0 := by
  have hrun : (run (conditionVariable (Fin 3)).step CondState.start (twoWaiters 0 1 2)).map
      (fun s => (s.shared.state 0, ((conditionVariable (Fin 3)).step s (.act 2 .step)).map
        fun t => t.shared.state 0)) = some (.waiting, some .signaled) := by decide +kernel
  obtain ⟨s, hs, heq⟩ := Option.map_eq_some_iff.mp hrun
  simp only [Prod.mk.injEq] at heq
  obtain ⟨hwaiting, hnext⟩ := heq
  obtain ⟨t, ht, hsignaled⟩ := Option.map_eq_some_iff.mp hnext
  exact ⟨s, t, ⟨_, hs⟩, ht, hsignaled,
    (cond_signals_oldest ⟨_, hs⟩).1 _ t 0 ht hwaiting hsignaled⟩

/-- **Nobody is stranded.** Where a context is in one of these functions, and it is not one that
waits for a signal that was not given, then some context can take a step of its own or wake another,
unless the program holds the mutex: no wake is lost, though the port wakes where musl would move a
sleeper to the mutex. -/
theorem cond_strands_nobody (h : Reachable (conditionVariable C).step CondState.start s) {c : C}
    (hin : (s.at_ c).outside = false)
    (hwaits : s.at_ c = .parked → s.shared.state c ≠ .waiting)
    (hfree : ∀ d, s.shared.owner = some d → (s.at_ d).outside = false) :
    ∃ d, (∃ t, (conditionVariable C).step s (.act d .step) = some t) ∨
      ∃ x t, (conditionVariable C).step s (.wake d x) = some t := by
  have hok := CondOk.of_reachable h
  by_contra hnobody
  push Not at hnobody
  have hstuck : ∀ d, (s.at_ d).Stuck s.shared := fun d =>
    stuck_of_no_step (hnobody d).1 (hnobody d).2
  have hunowned : ¬∃ d, s.shared.owner = some d := by
    rintro ⟨d, hd⟩
    have hout := hok.outside_of_owner hstuck hd
    rw [hfree d hd] at hout
    cases hout
  -- a context behind its barrier was signaled, and then the first of its group would have gone on
  have hbehind : (s.at_ c).stage = .waits ∨ (s.at_ c).stage = .behind →
      s.shared.state c ≠ .signaled := by
    refine fun hst hsignaled => hunowned (hok.owned_of_signaled hstuck (x := c) ?_ hsignaled)
    rcases hst with hst | hst <;> rw [hst] <;> rfl
  rcases hstuck c with hout | hasleep | hbarrier | href | ⟨-, hown⟩
  · rw [hin] at hout
    cases hout
  · rw [hok.lock_of_stuck hstuck c] at hasleep
    cases hasleep
  · cases hpc : s.at_ c with
    | parked =>
      have hst : (s.at_ c).stage = .waits := by
        rw [hpc]
        rfl
      cases hstate : s.shared.state c with
      | waiting => exact hwaits hpc hstate
      | signaled => exact hbehind (.inl hst) hstate
      | leaving => exact hok.inv.nodes.waits c hst hstate
    | barrier e a =>
      have hst : (s.at_ c).stage = .behind := by
        rw [hpc]
        rfl
      exact hbehind (.inr hst) (hok.inv.nodes.behind c (.inl hst))
    | _ =>
      rw [hpc] at hbarrier
      cases hbarrier
  · have hsignals := hok.signals_of_stuck hstuck c
    cases hpc : s.at_ c with
    | watching first cur a =>
      rw [hpc] at hsignals
      cases hsignals
    | _ =>
      rw [hpc] at href
      cases href
  · exact hunowned hown

/-- Both are signaled: the older has the mutex, and the other sleeps still. -/
def broadcastTwo {C : Type*} (x y z : C) : List (ParkMove C CondAct) :=
  bothWait x y ++ .act z (.signal (-1)) :: List.replicate 8 (.act z .step) ++
    .wake z (some x) :: List.replicate 4 (.act x .step)

theorem cond_strands_nobody_broadcast :
    ∃ s : CondState (Fin 3), Reachable (conditionVariable (Fin 3)).step CondState.start s ∧
      s.at_ 1 = .parked ∧ s.shared.state 1 = .signaled ∧ s.at_ 0 = .pass .woken ∧
        ∃ d, (∃ t, (conditionVariable (Fin 3)).step s (.act d .step) = some t) ∨
          ∃ x t, (conditionVariable (Fin 3)).step s (.wake d x) = some t := by
  have hrun : (run (conditionVariable (Fin 3)).step CondState.start (broadcastTwo 0 1 2)).map
      (fun s => (s.at_ 1, s.shared.state 1, s.at_ 0, s.shared.owner)) =
        some (.parked, .signaled, .pass .woken, some 0) := by decide +kernel
  obtain ⟨s, hs, heq⟩ := Option.map_eq_some_iff.mp hrun
  simp only [Prod.mk.injEq] at heq
  obtain ⟨hparked, hsignaled, hpass, howner⟩ := heq
  refine ⟨s, ⟨_, hs⟩, hparked, hsignaled, hpass,
    cond_strands_nobody ⟨_, hs⟩ (c := 1) ?_ (fun _ => ?_) fun d hd => ?_⟩
  · rw [hparked]
    rfl
  · rw [hsignaled]
    exact nofun
  · obtain rfl : 0 = d := Option.some.inj (howner.symm.trans hd)
    rw [hpass]
    rfl

end Results

end OpenkalMusl
