import OpenkalMusl.Finite.Occupancy
import OpenkalMusl.Threads.NormalMutex
import OpenkalMusl.Transition.Run

/-!
# The wakeups of a normal mutex

A normal mutex excludes in every run. A sleeper with a deadline is counted, so an unlock that finds
neither a mark nor a count leaves none behind. A sleeper without one is not, and rests on the mark
alone: it is safe as long as a wake that finds it asleep goes to it or to another like it, because
whoever is so woken marks the word again.

The two disciplines meet where a wake releases a context with a deadline while one without sleeps:
the released context takes the word unmarked and leaves the other neither marked nor counted.

## Main definitions

* `Inv`, `Timed`, `Untimed`: the invariant of the mutex, of bounded and of unbounded sleepers
* `Lost`: the mutex is free, a context sleeps, and no wake is on its way
* `PrefersUntimed`: the wakes that release no context with a deadline while one without sleeps

## Main results

* `step_cases`: what a step is
* `excludes_and_wakes`: mutual exclusion always, and no wakeup is lost while wakes prefer the
  contexts without a deadline
* `wakeup_lost`: a wakeup that is lost
-/

namespace OpenkalMusl

open Transition Occupancy

/-! ## The invariant -/

namespace NormalMutex

section

variable {C : Type*}

/-- A sleeper without a deadline sleeps on a marked word, or a wake is on its way to it or to
another like it. -/
def Untimed (s : NormalMutex C) : Prop :=
  ∀ x, s.pc x = .asleep → s.lock = contended ∨ ∃ y, s.pc y = .wake ∨ s.pc y = .swap true

/-- Where a context with a deadline sleeps on a free mutex, a wake is on its way. -/
def Timed (s : NormalMutex C) : Prop :=
  s.lock = 0 → ∀ x, s.pc x = .asleepTimed → ∃ y, s.pc y = .wake ∨ (s.pc y).woken = true

theorem timed_start : (start : NormalMutex C).Timed := fun _ _ h => by cases h

theorem untimed_start : (start : NormalMutex C).Untimed := fun _ h => by cases h

variable [DecidableEq C] (s : NormalMutex C)

theorem write_pc_self (c : C) (w : Write) : (s.write c w).pc c = w.pc := Function.update_self ..

theorem write_pc_of_ne {c x : C} (h : x ≠ c) (w : Write) : (s.write c w).pc x = s.pc x :=
  Function.update_of_ne h ..

theorem write_holds_self {c : C} {w : Write} {b : Bool} (hw : w.holds = some b) :
    (s.write c w).holds c = b := by
  simp [write, hw]

theorem write_holds_of_ne {c d : C} (h : d ≠ c) (w : Write) :
    (s.write c w).holds d = s.holds d := by
  cases hw : w.holds <;> simp [write, hw, h]

theorem write_holds_of_none {c : C} {w : Write} (hw : w.holds = none) :
    (s.write c w).holds = s.holds := by
  simp [write, hw]

end

variable {C : Type*} [Fintype C]

/-- The number of contexts that have counted themselves. -/
def countedBy (s : NormalMutex C) : ℕ :=
  (Finset.univ.filter fun c => (s.pc c).counted = true).card

/-- The invariant of the mutex, whichever sleepers are released. -/
structure Inv (s : NormalMutex C) : Prop where
  word : IsWord s.lock
  ok : ∀ c, (s.pc c).Ok
  free : s.lock = 0 → ∀ c, s.holds c = false
  unique : ∀ c d, s.holds c = true → s.holds d = true → c = d
  unlocking : ∀ c, (s.pc c).unlocking = true → s.holds c = true
  count : s.waiters = s.countedBy
  /-- An unlock that read no waiters, of a word without a mark, leaves no bounded sleeper. -/
  quiet : ∀ c x, s.pc c = .unlockSwap 0 → s.lock = ebusy → s.pc x ≠ .asleepTimed

theorem Inv.counted_pos {s : NormalMutex C} (h : s.Inv) {c : C} (hc : (s.pc c).counted = true) :
    0 < s.waiters := by
  rw [h.count, countedBy, Finset.card_pos]
  exact ⟨c, by simpa using hc⟩

theorem inv_start : (start : NormalMutex C).Inv where
  word := Or.inl rfl
  ok := fun _ => trivial
  free := fun _ _ => rfl
  unique := fun _ _ h => by cases h
  unlocking := fun _ h => by cases h
  count := by
    rw [countedBy, Finset.filter_false_of_mem fun c _ h => by cases h]
    rfl
  quiet := fun _ _ h => by cases h

variable [DecidableEq C]

/-- A step moves its context into the count or out of it. -/
theorem countedBy_write (s : NormalMutex C) (c : C) (w : Write) :
    (s.write c w).countedBy + (if (s.pc c).counted then 1 else 0) =
      s.countedBy + if w.pc.counted then 1 else 0 := by
  have hcomp : (fun x => ((s.write c w).pc x).counted) =
      Function.update (fun x => (s.pc x).counted) c w.pc.counted := by
    funext x
    by_cases hx : x = c
    · subst hx
      rw [write_pc_self, Function.update_self]
    · rw [write_pc_of_ne s hx, Function.update_of_ne hx]
  have hcard := card_update (fun x => (s.pc x).counted) c w.pc.counted true
  rw [← hcomp] at hcard
  exact hcard

section Write

variable {s : NormalMutex C} {c : C} {w : Write}

/-- **What a step of one context keeps.** -/
theorem Inv.write (h : s.Inv) (hl : Local s.lock s.waiters (s.holds c) (s.pc c) w) :
    (s.write c w).Inv where
  word := hl.word
  ok := by
    intro d
    by_cases hd : d = c
    · subst hd
      rw [write_pc_self]
      exact hl.ok
    · rw [write_pc_of_ne s hd]
      exact h.ok d
  free := by
    intro hlock d
    rcases hl.hold with ⟨-, -, hne⟩ | ⟨hw, -, hunlock, -⟩ | ⟨hw, hsame | ⟨-, hmark⟩⟩
    · exact absurd hlock hne
    · by_cases hd : d = c
      · subst hd
        exact write_holds_self s hw
      · -- the context that gives the mutex back was the one that held it
        rw [write_holds_of_ne s hd, Bool.eq_false_iff]
        exact fun hheld => hd (h.unique d c hheld (h.unlocking c hunlock))
    · rw [write_holds_of_none s hw]
      exact h.free (hsame.symm.trans hlock) d
    · exact absurd (hmark.symm.trans hlock) contended_ne_zero
  unique := by
    intro d e hd he
    rcases hl.hold with ⟨-, hfree, -⟩ | ⟨hw, -⟩ | ⟨hw, -⟩
    · -- it was free, so its taker is the only holder
      have honly : ∀ x, (s.write c w).holds x = true → x = c := by
        intro x hx
        by_contra hne
        rw [write_holds_of_ne s hne, h.free hfree x] at hx
        cases hx
      rw [honly d hd, honly e he]
    · have hkept : ∀ x, (s.write c w).holds x = true → s.holds x = true := by
        intro x hx
        by_cases hxc : x = c
        · subst hxc
          rw [write_holds_self s hw] at hx
          cases hx
        · rwa [write_holds_of_ne s hxc] at hx
      exact h.unique d e (hkept d hd) (hkept e he)
    · rw [write_holds_of_none s hw] at hd he
      exact h.unique d e hd he
  unlocking := by
    intro d hd
    by_cases hdc : d = c
    · subst hdc
      rw [write_pc_self] at hd
      obtain ⟨hheld, hw⟩ := hl.unlocking hd
      rwa [write_holds_of_none s hw]
    · rw [write_pc_of_ne s hdc] at hd
      rw [write_holds_of_ne s hdc]
      exact h.unlocking d hd
  count := by
    have hcount := hl.count
    have hby := countedBy_write s c w
    have := h.count
    have hwaiters : (s.write c w).waiters = w.waiters := rfl
    omega
  quiet := by
    intro d x hd hlock hx
    have hword : w.lock = ebusy := hlock
    -- nobody falls asleep on a word without a mark
    have hxc : x ≠ c := by
      rintro rfl
      rw [write_pc_self] at hx
      exact contended_ne_ebusy ((hl.asleep (Or.inr hx)).symm.trans hword)
    rw [write_pc_of_ne s hxc] at hx
    by_cases hdc : d = c
    · -- an unlock reads the count: a bounded sleeper is in it
      subst hdc
      rw [write_pc_self] at hd
      have hpos := h.counted_pos (c := x) (by rw [hx]; rfl)
      have := hl.load hd
      omega
    · rw [write_pc_of_ne s hdc] at hd
      have hheld := h.unlocking d (by rw [hd]; rfl)
      rcases hl.hold with ⟨-, hfree, -⟩ | ⟨-, hzero, -⟩ | ⟨-, hsame | ⟨-, hmark⟩⟩
      · -- the mutex is held by the unlocker, so nobody takes it or gives it back meanwhile
        rw [h.free hfree d] at hheld
        cases hheld
      · exact ebusy_ne_zero (hword.symm.trans hzero)
      · exact h.quiet d x hd (hsame.symm.trans hword) hx
      · exact contended_ne_ebusy (hmark.symm.trans hword)

theorem Timed.write (h : s.Timed) (hi : s.Inv)
    (hl : Local s.lock s.waiters (s.holds c) (s.pc c) w) (hwake : s.pc c ≠ .wake) :
    (s.write c w).Timed := by
  intro hlock x hx
  have hword : w.lock = 0 := hlock
  have hxc : x ≠ c := by
    rintro rfl
    rw [write_pc_self] at hx
    exact contended_ne_zero ((hl.asleep (Or.inr hx)).symm.trans hword)
  rw [write_pc_of_ne s hxc] at hx
  rcases hl.hold with ⟨-, -, hne⟩ | ⟨-, -, -, hpc | ⟨hbusy, hunlock⟩⟩ | ⟨-, hsame | ⟨-, hmark⟩⟩
  · exact absurd hword hne
  · exact ⟨c, Or.inl (by rw [write_pc_self, hpc])⟩
  · -- given back without a wake, and so with no bounded sleeper
    exact absurd hx (hi.quiet c x hunlock hbusy)
  · obtain ⟨y, hy⟩ := h (hsame.symm.trans hword) x hx
    by_cases hyc : y = c
    · -- a woken context stays so until it tries
      subst hyc
      refine ⟨y, Or.inr ?_⟩
      rw [write_pc_self]
      exact hl.woken (hy.resolve_left hwake) hword
    · exact ⟨y, by rwa [write_pc_of_ne s hyc]⟩
  · exact absurd (hmark.symm.trans hword) contended_ne_zero

omit [Fintype C] in
theorem Untimed.write (h : s.Untimed) (hl : Local s.lock s.waiters (s.holds c) (s.pc c) w)
    (hwake : s.pc c ≠ .wake) : (s.write c w).Untimed := by
  intro x hx
  have hlock : (s.write c w).lock = w.lock := rfl
  rw [hlock]
  by_cases hxc : x = c
  · subst hxc
    rw [write_pc_self] at hx
    exact Or.inl (hl.asleep (Or.inl hx))
  · rw [write_pc_of_ne s hxc] at hx
    rcases h x hx with hmarked | ⟨y, hy⟩
    · -- a marked word stays marked until it is given back with a wake
      rcases hl.hold with ⟨-, hfree, -⟩ | ⟨-, -, -, hpc | ⟨hbusy, -⟩⟩ | ⟨-, hsame | ⟨-, hmark⟩⟩
      · exact absurd (hmarked.symm.trans hfree) contended_ne_zero
      · exact Or.inr ⟨c, Or.inl (by rw [write_pc_self, hpc])⟩
      · exact absurd (hmarked.symm.trans hbusy) contended_ne_ebusy
      · exact Or.inl (hsame.trans hmarked)
      · exact Or.inl hmark
    · by_cases hyc : y = c
      · -- the woken one that waits without a deadline marks the word again
        subst hyc
        exact Or.inl (hl.wokenUntimed (hy.resolve_left hwake))
      · exact Or.inr ⟨y, by rwa [write_pc_of_ne s hyc]⟩

end Write

/-! ## Wakes -/

section Wake

variable {s : NormalMutex C} {c : C}

omit [Fintype C] in
/-- A context whose wake is over: where a sleeper is left, what it released is on its way. -/
theorem exists_after_wake {P Q : Pc → Prop} (hidle : ¬ P .idle) (hwake : ¬ Q .wake)
    (hc : s.pc c = .wake) (hnext : (∀ x, ¬ P (s.pc x)) ∨ ∃ y, Q (s.pc y)) {x : C}
    (hx : P ((s.goto c .idle).pc x)) : ∃ y, Q ((s.goto c .idle).pc y) := by
  by_cases hxc : x = c
  · subst hxc
    rw [goto, write_pc_self] at hx
    exact absurd hx hidle
  · rw [goto, write_pc_of_ne s hxc] at hx
    obtain ⟨y, hy⟩ := hnext.resolve_left fun hno => hno x hx
    -- the context that was released is not the one that woke it
    have hyc : y ≠ c := by
      rintro rfl
      rw [hc] at hy
      exact hwake hy
    exact ⟨y, by rwa [goto, write_pc_of_ne s hyc]⟩

omit [Fintype C] in
theorem timed_finish (hc : s.pc c = .wake)
    (hnext : (∀ x, s.pc x ≠ .asleepTimed) ∨ ∃ y, (s.pc y).woken = true) :
    (s.goto c .idle).Timed := by
  intro _ x hx
  obtain ⟨y, hy⟩ := exists_after_wake (P := (· = .asleepTimed)) (Q := fun pc => pc.woken = true)
    nofun nofun hc hnext hx
  exact ⟨y, Or.inr hy⟩

omit [Fintype C] in
theorem untimed_finish (hc : s.pc c = .wake)
    (hnext : (∀ x, s.pc x ≠ .asleep) ∨ ∃ y, s.pc y = .swap true) : (s.goto c .idle).Untimed := by
  intro x hx
  obtain ⟨y, hy⟩ := exists_after_wake (P := (· = .asleep)) (Q := (· = .swap true))
    nofun nofun hc hnext hx
  exact Or.inr ⟨y, Or.inr hy⟩

end Wake

/-- The wakes that release a context with a deadline only where none without one sleeps. -/
def PrefersUntimed (s : NormalMutex C) : MutexLabel C → Prop
  | .wake _ (some x) => s.pc x = .asleepTimed → ∀ y, s.pc y ≠ .asleep
  | _ => True

instance (s : NormalMutex C) (l : MutexLabel C) : Decidable (s.PrefersUntimed l) := by
  unfold PrefersUntimed
  split <;> infer_instance

/-- **What a step is**: a step of one context that wakes nobody, a wake that finds nobody asleep, or
a wake that releases a sleeper. -/
theorem step_cases {s t : NormalMutex C} {l : MutexLabel C} (hi : s.Inv) (h : s.step l = some t) :
    (∃ c w, t = s.write c w ∧ Local s.lock s.waiters (s.holds c) (s.pc c) w ∧ s.pc c ≠ .wake) ∨
      (∃ c, s.pc c = .wake ∧ (∀ x, (s.pc x).released = none) ∧ t = s.goto c .idle) ∨
      ∃ c x pc, l = .wake c (some x) ∧ s.pc c = .wake ∧ (s.pc x).released = some pc ∧
        t = (s.goto x pc).goto c .idle := by
  cases l with
  | call c f =>
    left
    simp only [step] at h
    split_ifs at h with hc
    refine ⟨c, _, (Option.some.inj h).symm, ?_, by rw [hc.1]; nofun⟩
    rw [hc.1]
    exact local_start hi.word hc.2
  | step c =>
    left
    obtain ⟨w, hw, rfl⟩ := Option.map_eq_some_iff.mp h
    refine ⟨c, w, rfl, local_next hw hi.word (hi.ok c) (fun hunlock => ?_) hi.counted_pos, ?_⟩
    · have hheld := hi.unlocking c hunlock
      refine ⟨hheld, fun hfree => ?_⟩
      rw [hi.free hfree c] at hheld
      cases hheld
    · intro hwake
      rw [hwake] at hw
      cases hw
  | returned c =>
    left
    obtain ⟨pc, hpc, rfl⟩ := Option.map_eq_some_iff.mp h
    refine ⟨c, _, rfl, local_returned hi.word hpc, fun hwake => ?_⟩
    rw [hwake] at hpc
    cases hpc
  | expired c =>
    left
    obtain ⟨pc, hpc, rfl⟩ := Option.map_eq_some_iff.mp h
    refine ⟨c, _, rfl, local_expired hi.word hpc, fun hwake => ?_⟩
    rw [hwake] at hpc
    cases hpc
  | wake c x =>
    right
    cases x with
    | none =>
      left
      simp only [step] at h
      split_ifs at h with hc
      exact ⟨c, hc.1, hc.2, (Option.some.inj h).symm⟩
    | some x =>
      right
      simp only [step] at h
      split_ifs at h with hc
      obtain ⟨pc, hpc, rfl⟩ := Option.map_eq_some_iff.mp h
      exact ⟨c, x, pc, rfl, hc, hpc, rfl⟩

theorem Inv.step {s t : NormalMutex C} {l : MutexLabel C} (hi : s.Inv) (h : s.step l = some t) :
    t.Inv := by
  rcases step_cases hi h with ⟨c, w, rfl, hl, -⟩ | ⟨c, hc, -, rfl⟩ | ⟨c, x, pc, -, hc, hx, rfl⟩
  · exact hi.write hl
  · refine hi.write ?_
    rw [hc]
    exact local_wake hi.word
  · have hix : (s.goto x pc).Inv := hi.write (local_released hi.word hx)
    have hcx : (s.goto x pc).pc c = .wake := by
      rw [goto, write_pc_of_ne s, hc]
      rintro rfl
      rw [hc] at hx
      cases hx
    refine hix.write ?_
    rw [hcx]
    exact local_wake hix.word

/-- A context that is released has been woken. -/
theorem woken_released {pc pc' : Pc} (h : pc.released = some pc') :
    pc'.woken = true ∧ (pc = .asleep → pc' = .swap true) ∧ pc ≠ .wake := by
  cases pc with
  | asleep =>
    obtain rfl := Option.some.inj h
    exact ⟨rfl, fun _ => rfl, nofun⟩
  | asleepTimed =>
    obtain rfl := Option.some.inj h
    exact ⟨rfl, nofun, nofun⟩
  | _ => cases h

theorem Timed.step {s t : NormalMutex C} {l : MutexLabel C} (hi : s.Inv) (ht : s.Timed)
    (h : s.step l = some t) : t.Timed := by
  rcases step_cases hi h with ⟨c, w, rfl, hl, hc⟩ | ⟨c, hc, hno, rfl⟩ | ⟨c, x, pc, -, hc, hx, rfl⟩
  · exact ht.write hi hl hc
  · refine timed_finish hc (Or.inl fun x hx => ?_)
    have := hno x
    rw [hx] at this
    cases this
  · obtain ⟨hwoken, -, hxw⟩ := woken_released hx
    have hcx : c ≠ x := by
      rintro rfl
      exact hxw hc
    refine timed_finish (by rw [goto, write_pc_of_ne s hcx, hc]) (Or.inr ⟨x, ?_⟩)
    rwa [goto, write_pc_self]

/-- A wake that prefers the contexts without a deadline is never lost on another. -/
theorem Untimed.step {s t : NormalMutex C} {l : MutexLabel C} (hi : s.Inv) (hu : s.Untimed)
    (hg : s.PrefersUntimed l) (h : s.step l = some t) : t.Untimed := by
  rcases step_cases hi h with ⟨c, w, rfl, hl, hc⟩ | ⟨c, hc, hno, rfl⟩ | ⟨c, x, pc, rfl, hc, hx, rfl⟩
  · exact hu.write hl hc
  · refine untimed_finish hc (Or.inl fun x hx => ?_)
    have := hno x
    rw [hx] at this
    cases this
  · obtain ⟨-, huntimed, hxw⟩ := woken_released hx
    have hcx : c ≠ x := by
      rintro rfl
      exact hxw hc
    refine untimed_finish (by rw [goto, write_pc_of_ne s hcx, hc]) ?_
    by_cases hasleep : s.pc x = .asleep
    · exact Or.inr ⟨x, by rw [goto, write_pc_self]; exact huntimed hasleep⟩
    · -- the sleeper released had a deadline, so that nobody without one is asleep
      have htimed : s.pc x = .asleepTimed := by
        revert hx hasleep
        cases s.pc x <;> simp [Pc.released]
      refine Or.inl fun y hy => ?_
      have hyx : y ≠ x := by
        rintro rfl
        rw [goto, write_pc_self] at hy
        rw [htimed] at hx
        obtain rfl := Option.some.inj hx
        cases hy
      rw [goto, write_pc_of_ne s hyx] at hy
      exact hg htimed y hy

theorem inv_of_reachable {s : NormalMutex C} (h : Reachable step start s) : s.Inv :=
  h.invariant inv_start fun _ _ _ hu hv => hu.step hv

/-- The mutex is free, a context sleeps on it, and nobody is on the way: no context is between its
unlocking swap and its wake, and none has been woken and not yet tried again. -/
def Lost (s : NormalMutex C) : Prop :=
  s.lock = 0 ∧ (∃ x, s.pc x = .asleep ∨ s.pc x = .asleepTimed) ∧
    ¬ ∃ y, s.pc y = .wake ∨ (s.pc y).woken = true

instance (s : NormalMutex C) : Decidable s.Lost := by
  unfold Lost
  infer_instance

/-- **A normal mutex excludes, and loses no wakeup** in any run whose wakes prefer the contexts
without a deadline. -/
theorem excludes_and_wakes (s : NormalMutex C) :
    (Reachable step start s → ∀ c d, s.holds c = true → s.holds d = true → c = d) ∧
      (Reachable (restrict step PrefersUntimed) start s → ¬ s.Lost) := by
  refine ⟨fun h => (inv_of_reachable h).unique, fun h => ?_⟩
  have hall : s.Inv ∧ s.Timed ∧ s.Untimed := by
    refine h.invariant (I := fun s => s.Inv ∧ s.Timed ∧ s.Untimed)
      ⟨inv_start, timed_start, untimed_start⟩ fun u l v hu hv => ?_
    obtain ⟨hg, hstep⟩ := restrict_eq_some.mp hv
    exact ⟨hu.1.step hstep, hu.2.1.step hu.1 hstep, hu.2.2.step hu.1 hg hstep⟩
  -- Each kind of sleeper has its own reason to be woken.
  rintro ⟨hfree, ⟨x, hx⟩, hno⟩
  rcases hx with hx | hx
  · rcases hall.2.2 x hx with hmark | ⟨y, hy⟩
    · exact contended_ne_zero (hmark.symm.trans hfree)
    · refine hno ⟨y, hy.imp_right fun hy => ?_⟩
      rw [hy]
      rfl
  · exact hno (hall.2.1 hfree x hx)

/-- Three contexts: one that holds the mutex, and one that waits without and one with a deadline. -/
inductive Trio where
  | holder | waiter | bounded
  deriving DecidableEq

instance : Fintype Trio where
  elems := {.holder, .waiter, .bounded}
  complete := fun c => by cases c <;> decide

/-- One takes the mutex, the next falls asleep, and the last falls asleep after its spin. -/
def bothAsleep : List (MutexLabel Trio) :=
  [.call .holder .lock, .step .holder] ++
    (.call .waiter .lock :: List.replicate 4 (.step .waiter)) ++
    (.call .bounded .timedlock :: List.replicate 208 (.step .bounded))

theorem excludes_and_wakes_bothAsleep :
    ∃ s : NormalMutex Trio, Reachable (restrict step PrefersUntimed) start s ∧
      s.pc .waiter = .asleep ∧ s.pc .bounded = .asleepTimed ∧
      (∀ c d, s.holds c = true → s.holds d = true → c = d) ∧ ¬ s.Lost := by
  have hrun : (run (restrict step PrefersUntimed) start bothAsleep).map
      (fun s => (s.pc .waiter, s.pc .bounded)) = some (.asleep, .asleepTimed) := by decide +kernel
  obtain ⟨s, hs, hpc⟩ := Option.map_eq_some_iff.mp hrun
  have hreach : Reachable (restrict step PrefersUntimed) start s := ⟨bothAsleep, hs⟩
  exact ⟨s, hreach, congrArg Prod.fst hpc, congrArg Prod.snd hpc,
    (excludes_and_wakes s).1 hreach.of_restrict, (excludes_and_wakes s).2 hreach⟩

/-- The wake releases the context with a deadline, which takes the mutex and gives it back. -/
def lostRun : List (MutexLabel Trio) :=
  bothAsleep ++
    [.call .holder .unlock, .step .holder, .step .holder, .wake .holder (some .bounded),
      .step .bounded, .step .bounded, .call .bounded .unlock, .step .bounded, .step .bounded]

/-- **A wakeup that is lost**: the mutex is free, and the context without a deadline sleeps on. -/
theorem wakeup_lost : ∃ s : NormalMutex Trio, Reachable step start s ∧ s.Lost := by
  have hrun : (run step start lostRun).map (fun s => decide s.Lost) = some true := by
    decide +kernel
  obtain ⟨s, hs, hlost⟩ := Option.map_eq_some_iff.mp hrun
  exact ⟨s, ⟨lostRun, hs⟩, of_decide_eq_true hlost⟩

end NormalMutex

end OpenkalMusl
