import OpenkalMusl.Port.Basic
import Mathlib.Algebra.Order.Ring.Nat

/-!
# Bounds in time

A program states how long a call may wait as seconds and a fraction. `ppoll`, `pselect6` and
`select` hand `okm_poll` a number of milliseconds, in which a negative one is no bound at all
(`ms_of_timespec`); `FUTEX_WAIT` hands the environment a number of nanoseconds, in which zero is no
bound at all, and the calls that sleep hand it one in which zero is a bound.

The sums are taken in the types the source gives them. Of a sum of signed numbers that cannot be
represented the language says nothing; one of unsigned numbers is reduced.

A time until which a call is to sleep is one of the clock that the call names, which is read as
`clock_gettime` reads it. The call itself subtracts the wall clock of `CLOCK_REALTIME` and the
monotonic one of every other.

## Main definitions

* `Timespec`, `Timeval`: what a program states
* `PollBound.timeout`: the milliseconds handed to `okm_poll`
* `Clocks`, `clockGettime`: the environment's clocks, and what a clock of a program's shows
* `Sleep.duration`: the nanoseconds handed to the environment
* `timedwaitTo`: what is left of a time until which a thread waits

## Main results

* `timeout_kept_iff`: when the milliseconds are those that were asked for
* `duration_kept_iff`: when the nanoseconds are
* `timedwaitTo_waits`: what a timed wait passes on
-/

namespace OpenkalMusl

/-- What a `long` and a `long long` hold. -/
def InLong (n : Int) : Prop := -2 ^ 63 ≤ n ∧ n < 2 ^ 63

instance (n : Int) : Decidable (InLong n) := inferInstanceAs (Decidable (_ ∧ _))

/-- A signed sum or product, where it can be represented. -/
def longLong (n : Int) : Option Int := if InLong n then some n else none

/-- What a number becomes as an `int`. -/
def toInt (n : Int) : Int := (n + 2 ^ 31) % 2 ^ 32 - 2 ^ 31

/-- What a number becomes as a `kal_u64`. -/
def toU64 (n : Int) : ℕ := (n % 2 ^ 64).toNat

def intLargest : Int := 0x7fffffff

/-- The greatest `kal_u64`. -/
def u64Max : ℕ := 2 ^ 64 - 1

/-- `struct timespec`. -/
structure Timespec where
  sec : Int
  nsec : Int
  sec_inLong : InLong sec := by decide
  nsec_inLong : InLong nsec := by decide

/-- `struct timeval`. -/
structure Timeval where
  sec : Int
  usec : Int
  sec_inLong : InLong sec := by decide
  usec_inLong : InLong usec := by decide

namespace Timespec

/-- The fraction is one, and nothing is negative. -/
def WellFormed (t : Timespec) : Prop := 0 ≤ t.sec ∧ 0 ≤ t.nsec ∧ t.nsec < 1000000000

/-- The nanoseconds that are stated. -/
def total (t : Timespec) : Int := t.sec * 1000000000 + t.nsec

end Timespec

namespace Timeval

def WellFormed (t : Timeval) : Prop := 0 ≤ t.sec ∧ 0 ≤ t.usec ∧ t.usec < 1000000

def total (t : Timeval) : Int := t.sec * 1000000000 + t.usec * 1000

end Timeval

/-! ## Milliseconds -/

/-- What becomes of a bound: it is handed on, the call is refused, or the language does not say. -/
inductive Bounded (α : Type) where
  | handed (a : α)
  | refused (e : Errno)
  | undefined
  deriving DecidableEq

/-- The sum that `ms_of_timespec` takes, of seconds and nanoseconds of a bound that is not zero. -/
def msOf (sec nsec : Int) : Bounded Int :=
  match longLong (sec * 1000) with
  | none => .undefined
  | some s =>
    match longLong (s + nsec.tdiv 1000000) with
    | none => .undefined
    | some ms =>
      let ms := if ms = 0 then 1 else ms
      let ms := if intLargest < ms then intLargest else ms
      .handed (toInt ms)

/-- `ms_of_timespec`. -/
def msOfTimespec (sec nsec : Int) : Bounded Int :=
  if sec = 0 ∧ nsec = 0 then .handed 0 else msOf sec nsec

/-- A readiness call, with its bound. `select` is the system call `SYS_select`: the library's
`select` refuses what is negative and carries whole seconds out of the fraction before it. -/
inductive PollBound where
  | ppoll (t : Option Timespec)
  | pselect6 (t : Option Timespec)
  | select (t : Option Timeval)

namespace PollBound

/-- The milliseconds handed to `okm_poll`; `select` converts its fraction first. -/
def timeout : PollBound → Bounded Int
  | ppoll none | pselect6 none | select none => .handed (-1)
  | ppoll (some t) | pselect6 (some t) => msOfTimespec t.sec t.nsec
  | select (some t) =>
    match longLong (t.usec * 1000) with
    | none => .undefined
    | some nsec => msOfTimespec t.sec nsec

/-- What is stated, in nanoseconds; nothing, where there is no bound. -/
def stated : PollBound → Option Int
  | ppoll t | pselect6 t => t.map Timespec.total
  | select t => t.map Timeval.total

/-- The bound is one. -/
def WellFormed : PollBound → Prop
  | ppoll t | pselect6 t => ∀ s ∈ t, s.WellFormed
  | select t => ∀ s ∈ t, s.WellFormed

end PollBound

/-- The least whole number of milliseconds that is not less. -/
def leastMs (ns : Int) : Int := (ns + 999999) / 1000000

/-- **What is promised of a bound**: the least number of milliseconds that is not less, or the
largest there is; and one that is none is refused. -/
def TimeoutKept (c : PollBound) : Prop :=
  ∀ ns ∈ c.stated,
    (c.WellFormed → c.timeout = .handed (min (leastMs ns) intLargest)) ∧
      (¬c.WellFormed → c.timeout = .refused .einval)

/-- The milliseconds of a bound can be computed and are the least: there is no rest, or they are
none and are made one, or they are more than there are. -/
def MsExact (ns : Int) : Prop :=
  ns / 1000000 < 2 ^ 63 ∧ (ns % 1000000 = 0 ∨ ns < 1000000 ∨ intLargest ≤ ns / 1000000)

section Milliseconds

variable {sec nsec : Int}

theorem longLong_eq {n : Int} (h : InLong n) : longLong n = some n := if_pos h

theorem longLong_eq_none {n : Int} (h : ¬InLong n) : longLong n = none := if_neg h

theorem toInt_eq {n : Int} (hneg : -2 ^ 31 ≤ n) (hlt : n < 2 ^ 31) : toInt n = n := by
  rw [toInt]
  omega

theorem msOf_ne_refused (e : Errno) : msOf sec nsec ≠ .refused e := by
  unfold msOf
  split
  · nofun
  · split
    · nofun
    · nofun

/-- No bound is refused. -/
theorem msOfTimespec_ne_refused (e : Errno) : msOfTimespec sec nsec ≠ .refused e := by
  unfold msOfTimespec
  split_ifs
  · nofun
  · exact msOf_ne_refused e

/-- The milliseconds that are computed, where they can be. -/
theorem msOf_eq (hsec : 0 ≤ sec) (hnsec : 0 ≤ nsec)
    (hlt : (sec * 1000000000 + nsec) / 1000000 < 2 ^ 63) :
    msOf sec nsec = .handed (min (if (sec * 1000000000 + nsec) / 1000000 = 0 then 1
      else (sec * 1000000000 + nsec) / 1000000) intLargest) := by
  have hdiv : nsec.tdiv 1000000 = nsec / 1000000 := Int.tdiv_eq_ediv_of_nonneg hnsec
  have hms : (sec * 1000000000 + nsec) / 1000000 = sec * 1000 + nsec / 1000000 := by omega
  rw [hms] at hlt ⊢
  have hfirst : InLong (sec * 1000) := ⟨by omega, by omega⟩
  have hsum : InLong (sec * 1000 + nsec / 1000000) := ⟨by omega, by omega⟩
  unfold msOf
  rw [longLong_eq hfirst]
  dsimp only
  rw [hdiv, longLong_eq hsum]
  have hpos : 0 ≤ sec * 1000 + nsec / 1000000 := by omega
  generalize sec * 1000 + nsec / 1000000 = ms at hpos
  dsimp only
  by_cases hzero : ms = 0
  · rw [if_pos hzero]
    rfl
  · rw [if_neg hzero, Bounded.handed.injEq]
    by_cases hmax : intLargest < ms
    · rw [if_pos hmax, min_eq_right hmax.le]
      rfl
    · rw [if_neg hmax, min_eq_left (not_lt.mp hmax)]
      rw [intLargest] at hmax
      exact toInt_eq (by omega) (by omega)

theorem msOf_undefined (hnsec : 0 ≤ nsec)
    (hle : 2 ^ 63 ≤ (sec * 1000000000 + nsec) / 1000000) : msOf sec nsec = .undefined := by
  have hdiv : nsec.tdiv 1000000 = nsec / 1000000 := Int.tdiv_eq_ediv_of_nonneg hnsec
  have hms : (sec * 1000000000 + nsec) / 1000000 = sec * 1000 + nsec / 1000000 := by omega
  rw [hms] at hle
  unfold msOf
  by_cases hfirst : InLong (sec * 1000)
  · have hsum : ¬InLong (sec * 1000 + nsec / 1000000) := fun h => absurd h.2 (not_lt.mpr hle)
    rw [longLong_eq hfirst]
    dsimp only
    rw [hdiv, longLong_eq_none hsum]
  · rw [longLong_eq_none hfirst]

/-- **A bound that is one is kept** exactly where its milliseconds are exact. -/
theorem msOfTimespec_eq_iff (hsec : 0 ≤ sec) (hnsec : 0 ≤ nsec) :
    msOfTimespec sec nsec = .handed (min (leastMs (sec * 1000000000 + nsec)) intLargest) ↔
      MsExact (sec * 1000000000 + nsec) := by
  unfold msOfTimespec
  by_cases hzero : sec = 0 ∧ nsec = 0
  · obtain ⟨rfl, rfl⟩ := hzero
    exact iff_of_true rfl ⟨by decide, Or.inl rfl⟩
  · rw [if_neg hzero]
    have hpos : 0 < sec * 1000000000 + nsec := by omega
    by_cases hlt : (sec * 1000000000 + nsec) / 1000000 < 2 ^ 63
    · rw [msOf_eq hsec hnsec hlt]
      generalize sec * 1000000000 + nsec = ns at hlt hpos
      rw [Bounded.handed.injEq, leastMs, MsExact]
      simp only [intLargest]
      split_ifs <;> omega
    · rw [msOf_undefined hnsec (not_lt.mp hlt)]
      exact iff_of_false nofun (fun h => hlt h.1)

/-- What is promised of a bound, of one conversion; nothing is refused, so that what is not well
formed is not kept. -/
theorem kept_iff {timeout : Bounded Int} {wellFormed : Prop} {ns : Int}
    (hrefused : timeout ≠ .refused .einval)
    (heq : wellFormed → (timeout = .handed (min (leastMs ns) intLargest) ↔ MsExact ns)) :
    (wellFormed → timeout = .handed (min (leastMs ns) intLargest)) ∧
      (¬wellFormed → timeout = .refused .einval) ↔ wellFormed ∧ MsExact ns := by
  by_cases hform : wellFormed
  · constructor
    · intro h
      exact ⟨hform, (heq hform).mp (h.1 hform)⟩
    · intro h
      exact ⟨fun _ => (heq hform).mpr h.2, fun hnot => absurd hform hnot⟩
  · constructor
    · intro h
      exact absurd (h.2 hform) hrefused
    · intro h
      exact absurd h.1 hform

/-- A `timespec` is converted as it is. -/
theorem timespec_kept_iff (t : Timespec) :
    (t.WellFormed → msOfTimespec t.sec t.nsec = .handed (min (leastMs t.total) intLargest)) ∧
      (¬t.WellFormed → msOfTimespec t.sec t.nsec = .refused .einval) ↔
        t.WellFormed ∧ MsExact t.total := by
  apply kept_iff (msOfTimespec_ne_refused _)
  intro h
  exact msOfTimespec_eq_iff h.1 h.2.1

/-- The fraction of a `timeval` is converted first. -/
theorem timeval_kept_iff (t : Timeval) :
    (t.WellFormed →
        (PollBound.select (some t)).timeout = .handed (min (leastMs t.total) intLargest)) ∧
      (¬t.WellFormed → (PollBound.select (some t)).timeout = .refused .einval) ↔
        t.WellFormed ∧ MsExact t.total := by
  apply kept_iff
  · simp only [PollBound.timeout]
    cases longLong (t.usec * 1000) with
    | none => nofun
    | some nsec => exact msOfTimespec_ne_refused _
  · rintro ⟨hsec, hpos, hlt⟩
    have hlong : longLong (t.usec * 1000) = some (t.usec * 1000) :=
      longLong_eq ⟨by omega, by omega⟩
    simp only [PollBound.timeout, hlong]
    exact msOfTimespec_eq_iff hsec (by omega)

end Milliseconds

/-- **A bound of a readiness call is kept** exactly where there is none, or where it is well formed
and its milliseconds are exact. -/
theorem timeout_kept_iff (c : PollBound) :
    TimeoutKept c ↔ ∀ ns ∈ c.stated, c.WellFormed ∧ MsExact ns := by
  have hall : ∀ {t : Timespec}, (∀ s ∈ some t, s.WellFormed) ↔ t.WellFormed := by simp
  unfold TimeoutKept
  cases c with
  | ppoll t =>
    cases t with
    | none => exact iff_of_true nofun nofun
    | some t =>
      simp only [PollBound.stated, Option.map_some, Option.mem_some_iff, forall_eq',
        PollBound.WellFormed]
      exact timespec_kept_iff t
  | pselect6 t =>
    cases t with
    | none => exact iff_of_true nofun nofun
    | some t =>
      simp only [PollBound.stated, Option.map_some, Option.mem_some_iff, forall_eq',
        PollBound.WellFormed]
      exact timespec_kept_iff t
  | select t =>
    cases t with
    | none => exact iff_of_true nofun nofun
    | some t =>
      simp only [PollBound.stated, Option.map_some, Option.mem_some_iff, forall_eq',
        PollBound.WellFormed]
      exact timeval_kept_iff t

/-- A bound of a millisecond and a half is handed on as one millisecond. -/
theorem timeout_not_kept_half : ¬TimeoutKept (.ppoll (some { sec := 0, nsec := 1500000 })) := by
  intro h
  have hform : (PollBound.ppoll (some { sec := 0, nsec := 1500000 })).WellFormed := by
    intro t ht
    cases ht
    exact ⟨by decide, by decide, by decide⟩
  cases (h 1500000 rfl).1 hform

/-! ## Nanoseconds -/

/-- What the environment's clocks show. -/
structure Clocks where
  /-- `kal_time_wall`. -/
  wall : ℕ
  /-- `kal_time_monotonic`. -/
  monotonic : ℕ
  /-- The processor time of the program (`okm_self_cpu_ns`), where the environment has it. -/
  selfCpu : Option ℕ
  wall_lt : wall < 2 ^ 64 := by decide
  monotonic_lt : monotonic < 2 ^ 64 := by decide
  selfCpu_lt : ∀ ns ∈ selfCpu, ns < 2 ^ 63 := by decide

section ClockNumbers

def clockRealtime : Int := 0
def clockProcessCputimeId : Int := 2
def clockThreadCputimeId : Int := 3
def clockRealtimeCoarse : Int := 5

def timerAbstime : ℕ := 1

end ClockNumbers

/-- `SYS_clock_gettime`: what the clock of a number shows. -/
def clockGettime (clocks : Clocks) (clk : Int) : Except Errno ℕ :=
  if clk = clockRealtime ∨ clk = clockRealtimeCoarse then .ok clocks.wall
  else if clk = clockProcessCputimeId then
    match clocks.selfCpu with
    | none => .error .einval
    | some ns => .ok ns
  -- a context's own processor time is not in the interface
  else if clk = clockThreadCputimeId then .error .einval
  else .ok clocks.monotonic

/-- The nanoseconds of a `timespec`, as they are added up. -/
def nsOf (t : Timespec) : ℕ := (toU64 t.sec * 1000000000 + toU64 t.nsec) % 2 ^ 64

/-- A call that waits for a time. `clockNanosleep` is the system call `SYS_clock_nanosleep`: the
library's `clock_nanosleep` refuses `CLOCK_THREAD_CPUTIME_ID` before it, and makes a relative sleep
on `CLOCK_REALTIME` a `nanosleep`. -/
inductive Sleep where
  | futexWait (t : Option Timespec)
  | nanosleep (t : Option Timespec)
  | clockNanosleep (clk : Int) (flags : ℕ) (t : Option Timespec)

namespace Sleep

/-- The clock that `SYS_clock_nanosleep` subtracts from a time until which it is to sleep. -/
def nowOf (clocks : Clocks) (clk : Int) : ℕ :=
  if clk = clockRealtime then clocks.wall else clocks.monotonic

/-- The nanoseconds handed to `okm_task_wait` or `kal_time_sleep`. -/
def duration (clocks : Clocks) : Sleep → Bounded ℕ
  | futexWait none => .handed 0
  | futexWait (some t) => .handed (nsOf t)
  | nanosleep none => .refused .efault
  | nanosleep (some t) => .handed (nsOf t)
  | clockNanosleep _ _ none => .refused .efault
  | clockNanosleep clk flags (some t) =>
    let ns := nsOf t
    if hasFlag flags timerAbstime then
      let now := nowOf clocks clk
      .handed (if now < ns then ns - now else 0)
    else .handed ns

/-- What is stated. -/
def stated : Sleep → Option Timespec
  | futexWait t | nanosleep t | clockNanosleep _ _ t => t

/-- What the time that is stated is counted from: what the clock that is named shows, if it is to be
slept until it shows that time. -/
def origin (clocks : Clocks) : Sleep → Except Errno ℕ
  | clockNanosleep clk flags _ =>
    if hasFlag flags timerAbstime then clockGettime clocks clk else .ok 0
  | _ => .ok 0

/-- What is subtracted from it. -/
def subtracted (clocks : Clocks) : Sleep → ℕ
  | clockNanosleep clk flags _ => if hasFlag flags timerAbstime then nowOf clocks clk else 0
  | _ => 0

/-- The duration is no bound at all. -/
def Endless (ns : ℕ) : Sleep → Prop
  | futexWait _ => ns = 0
  | _ => False

end Sleep

/-- **What is promised of a duration**: it is what was asked for, or the longest there is, and a
bound; what is not well formed is refused, and so is a time of a clock that cannot be read. -/
def DurationKept (clocks : Clocks) (c : Sleep) : Prop :=
  ∀ t ∈ c.stated,
    (∀ origin, c.origin clocks = .ok origin → t.WellFormed →
      ∃ ns, c.duration clocks = .handed ns ∧ ¬c.Endless ns ∧
        (c.Endless (t.total.toNat - origin) ∨ ns = min (t.total.toNat - origin) u64Max)) ∧
    (∀ e, c.origin clocks = .error e → c.duration clocks = .refused e) ∧
    (¬t.WellFormed → c.duration clocks = .refused .einval)

/-- The duration can be represented, and what is subtracted is what it is counted from, or both
clocks show the time already; or nothing is subtracted, and it is reduced to the longest there
is. -/
def NsExact (now origin : ℕ) (t : Timespec) : Prop :=
  t.total < 2 ^ 64 ∧ (now = origin ∨ t.total ≤ now ∧ t.total ≤ origin) ∨
    2 ^ 64 ≤ t.total ∧ now = 0 ∧ t.total % 2 ^ 64 = u64Max

section Nanoseconds

variable {t : Timespec}

theorem nsOf_eq (h : t.WellFormed) : nsOf t = t.total.toNat % 2 ^ 64 := by
  obtain ⟨hsec, hpos, hlt⟩ := h
  have hsecLong := t.sec_inLong.2
  have h1 : toU64 t.sec = t.sec.toNat := by
    rw [toU64]
    omega
  have h2 : toU64 t.nsec = t.nsec.toNat := by
    rw [toU64]
    omega
  rw [nsOf, h1, h2, Timespec.total]
  omega

/-- What is handed on is what was asked for exactly where it can be represented, and counted from
what is subtracted. -/
theorem duration_eq_iff (h : t.WellFormed) {now origin : ℕ} (horigin : origin < 2 ^ 64) :
    nsOf t - now = min (t.total.toNat - origin) u64Max ↔ NsExact now origin t := by
  have hpos : 0 ≤ t.total := by
    obtain ⟨hsec, hnsec, -⟩ := h
    rw [Timespec.total]
    omega
  rw [nsOf_eq h, NsExact]
  generalize t.total = ns at hpos
  simp only [u64Max]
  omega

theorem relative_eq_iff (h : t.WellFormed) :
    nsOf t = min t.total.toNat u64Max ↔ NsExact 0 0 t := by
  have hiff := @duration_eq_iff t h 0 0 (by decide)
  rwa [Nat.sub_zero, Nat.sub_zero] at hiff

/-- No clock shows more than can be represented. -/
theorem lt_of_clockGettime {clocks : Clocks} {clk : Int} {ns : ℕ}
    (h : clockGettime clocks clk = .ok ns) : ns < 2 ^ 64 := by
  unfold clockGettime at h
  split_ifs at h
  · cases h
    exact clocks.wall_lt
  · cases hcpu : clocks.selfCpu with
    | none => simp [hcpu] at h
    | some n =>
      obtain rfl : n = ns := by simpa [hcpu] using h
      have := clocks.selfCpu_lt n hcpu
      omega
  · cases h
    exact clocks.monotonic_lt

theorem Sleep.origin_lt {clocks : Clocks} {c : Sleep} {origin : ℕ}
    (h : c.origin clocks = .ok origin) : origin < 2 ^ 64 := by
  cases c with
  | clockNanosleep clk flags t =>
    rw [Sleep.origin] at h
    split_ifs at h
    · exact lt_of_clockGettime h
    · cases h
      decide
  | futexWait t =>
    cases h
    decide
  | nanosleep t =>
    cases h
    decide

/-- A call that sleeps has no duration that is none. -/
theorem slept_kept_iff {clocks : Clocks} {c : Sleep} (hc : ∀ ns, ¬c.Endless ns)
    (ht : c.stated = some t)
    (hduration : c.duration clocks = .handed (nsOf t - c.subtracted clocks)) :
    DurationKept clocks c ↔ t.WellFormed ∧
      ∃ origin, c.origin clocks = .ok origin ∧ NsExact (c.subtracted clocks) origin t := by
  unfold DurationKept
  rw [ht]
  simp only [Option.mem_some_iff, forall_eq', hduration]
  constructor
  · rintro ⟨hkept, hread, hrefused⟩
    have hform : t.WellFormed := by
      by_contra hnot
      cases hrefused hnot
    refine ⟨hform, ?_⟩
    cases horigin : c.origin clocks with
    | error e => cases hread e horigin
    | ok origin =>
      obtain ⟨ns, hns, -, hsame⟩ := hkept origin horigin hform
      rw [Bounded.handed.injEq] at hns
      subst hns
      exact ⟨origin, rfl, (duration_eq_iff hform (Sleep.origin_lt horigin)).mp
        (hsame.resolve_left (hc _))⟩
  · rintro ⟨hform, origin, horigin, hexact⟩
    refine ⟨fun origin' horigin' _ => ?_, fun e he => ?_, fun hnot => absurd hform hnot⟩
    · obtain rfl : origin = origin' := by simpa [horigin] using horigin'
      exact ⟨_, rfl, hc _, Or.inr ((duration_eq_iff hform (Sleep.origin_lt horigin)).mpr hexact)⟩
    · rw [horigin] at he
      cases he

/-- A wait has: zero. -/
theorem futexWait_kept_iff (clocks : Clocks) :
    DurationKept clocks (.futexWait (some t)) ↔
      t.WellFormed ∧ NsExact 0 0 t ∧ t.total.toNat ≠ 0 := by
  unfold DurationKept
  simp only [Sleep.stated, Option.mem_some_iff, forall_eq', Sleep.duration, Sleep.Endless,
    Sleep.origin, Except.ok.injEq, Nat.sub_zero, Bounded.handed.injEq, exists_eq_left']
  constructor
  · rintro ⟨hkept, -, hrefused⟩
    have hform : t.WellFormed := by
      by_contra hnot
      cases hrefused hnot
    obtain ⟨hne, hsame⟩ := hkept hform
    have htotal : t.total.toNat ≠ 0 := by
      intro hzero
      apply hne
      rw [nsOf_eq hform, hzero]
      rfl
    exact ⟨hform, (relative_eq_iff hform).mp (hsame.resolve_left htotal), htotal⟩
  · rintro ⟨hform, hexact, htotal⟩
    have heq := (relative_eq_iff hform).mpr hexact
    refine ⟨fun _ => ⟨?_, Or.inr heq⟩, nofun, fun hnot => absurd hform hnot⟩
    rw [heq]
    simp only [u64Max]
    omega

end Nanoseconds

/-! ## A wait until a time -/

/-- What `__timedwait_cp` does with a time until which it is to wait. -/
inductive TimedWait where
  | refused
  | timedOut
  | waits (rest : Timespec)
  | undefined

/-- What `__timedwait_cp` makes of the time, at the time `now` of its clock. -/
def timedwaitTo (deadline : Timespec) (now : ℕ) : TimedWait :=
  -- the fraction is compared as an unsigned number
  if 1000000000 ≤ toU64 deadline.nsec then .refused
  else
    match longLong (deadline.sec - now / 1000000000) with
    | none => .undefined
    | some sec =>
      let nsec := deadline.nsec - now % 1000000000
      let sec := if nsec < 0 then sec - 1 else sec
      let nsec := if nsec < 0 then nsec + 1000000000 else nsec
      if h : InLong sec ∧ InLong nsec then
        if sec < 0 then .timedOut else .waits ⟨sec, nsec, h.1, h.2⟩
      else .undefined

/-- **What a timed wait passes on** is well formed, and is what is left until its time. -/
theorem timedwaitTo_waits {deadline rest : Timespec} {now : ℕ}
    (h : timedwaitTo deadline now = .waits rest) :
    rest.WellFormed ∧ rest.total = deadline.total - now := by
  have hrange := deadline.nsec_inLong
  unfold timedwaitTo at h
  split_ifs at h with hfraction
  cases hsec : longLong (deadline.sec - now / 1000000000) with
  | none => simp [hsec] at h
  | some sec =>
    rw [longLong] at hsec
    split_ifs at hsec with hlong
    rw [Option.some.injEq] at hsec
    subst hsec
    -- a fraction that passes the unsigned test is not negative
    have hlt : 0 ≤ deadline.nsec ∧ deadline.nsec < 1000000000 := by
      rw [toU64] at hfraction
      have hlow := hrange.1
      have hhigh := hrange.2
      omega
    rw [longLong_eq hlong] at h
    dsimp only at h
    -- the second that the fraction borrows, or none
    split_ifs at h with hborrow hfits hneg hfits hneg
    · cases h
      refine ⟨⟨by dsimp only; omega, by dsimp only; omega, by dsimp only; omega⟩, ?_⟩
      simp only [Timespec.total]
      omega
    · cases h
      refine ⟨⟨by dsimp only; omega, by dsimp only; omega, by dsimp only; omega⟩, ?_⟩
      simp only [Timespec.total]
      omega

/-- A timed wait is kept unless its time is now, or further away than can be represented. -/
theorem timedwait_kept_iff (clocks : Clocks) {deadline rest : Timespec} {now : ℕ}
    (h : timedwaitTo deadline now = .waits rest) :
    DurationKept clocks (.futexWait (some rest)) ↔ NsExact 0 0 rest ∧ deadline.total ≠ now := by
  obtain ⟨hform, htotal⟩ := timedwaitTo_waits h
  have hpos : 0 ≤ rest.total := by
    obtain ⟨hsec, hnsec, -⟩ := hform
    rw [Timespec.total]
    omega
  rw [futexWait_kept_iff]
  constructor
  · rintro ⟨-, hexact, hne⟩
    exact ⟨hexact, by omega⟩
  · rintro ⟨hexact, hne⟩
    exact ⟨hform, hexact, by omega⟩

/-! ## All calls that wait -/

theorem duration_nanosleep (clocks : Clocks) (t : Timespec) :
    (Sleep.nanosleep (some t)).duration clocks =
      .handed (nsOf t - (Sleep.nanosleep (some t)).subtracted clocks) := by
  have hnone : (Sleep.nanosleep (some t)).subtracted clocks = 0 := rfl
  rw [hnone, Nat.sub_zero (nsOf t), Sleep.duration]

/-- A time that has passed leaves nothing to wait for. -/
theorem duration_clockNanosleep (clocks : Clocks) (clk : Int) (flags : ℕ) (t : Timespec) :
    (Sleep.clockNanosleep clk flags (some t)).duration clocks =
      .handed (nsOf t - (Sleep.clockNanosleep clk flags (some t)).subtracted clocks) := by
  simp only [Sleep.duration, Sleep.subtracted]
  by_cases habs : hasFlag flags timerAbstime = true
  · rw [if_pos habs, if_pos habs, Bounded.handed.injEq]
    generalize Sleep.nowOf clocks clk = now
    split_ifs <;> omega
  · rw [if_neg habs, if_neg habs, Nat.sub_zero (nsOf t)]

/-- **The duration of a call is kept** exactly where there is none, or where it is well formed, its
clock can be read and the duration is exact, and it is not the zero that the environment takes for
no bound. -/
theorem duration_kept_iff (clocks : Clocks) (c : Sleep) :
    DurationKept clocks c ↔ ∀ t ∈ c.stated, t.WellFormed ∧
      (∃ origin, c.origin clocks = .ok origin ∧ NsExact (c.subtracted clocks) origin t) ∧
      ¬c.Endless t.total.toNat := by
  cases ht : c.stated with
  | none => simp [DurationKept, ht]
  | some t =>
    simp only [Option.mem_some_iff, forall_eq']
    cases c with
    | futexWait s =>
      obtain rfl : s = some t := ht
      rw [futexWait_kept_iff]
      simp only [Sleep.Endless, Sleep.origin, Sleep.subtracted, Except.ok.injEq, exists_eq_left',
        Ne]
    | nanosleep s =>
      obtain rfl : s = some t := ht
      rw [slept_kept_iff (fun _ => id) rfl (duration_nanosleep clocks t)]
      simp only [Sleep.Endless, not_false_eq_true, and_true]
    | clockNanosleep clk flags s =>
      obtain rfl : s = some t := ht
      rw [slept_kept_iff (fun _ => id) rfl (duration_clockNanosleep clocks clk flags t)]
      simp only [Sleep.Endless, not_false_eq_true, and_true]

/-- The clocks at the fifth second and seven nanoseconds, of a program that has run for fifty. -/
def Clocks.fifthSecond : Clocks where
  wall := 5000000007
  monotonic := 100
  selfCpu := some 50

/-- A wait until a time that is now is a wait without end. -/
theorem duration_not_kept_now :
    ∃ rest, timedwaitTo { sec := 5, nsec := 7 } 5000000007 = .waits rest ∧
      ¬DurationKept .fifthSecond (.futexWait (some rest)) := by
  refine ⟨{ sec := 0, nsec := 0 }, rfl, ?_⟩
  intro h
  have hkept := @timedwait_kept_iff .fifthSecond { sec := 5, nsec := 7 } { sec := 0, nsec := 0 }
    5000000007 rfl
  exact (hkept.mp h).2 rfl

end OpenkalMusl
