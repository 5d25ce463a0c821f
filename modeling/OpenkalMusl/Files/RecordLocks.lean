import OpenkalMusl.Files.Transfers
import OpenkalMusl.Time.Bounds
import Mathlib.Data.Set.Basic

/-!
# Record locks

A program states the bytes of a record lock as a start, a length and where the start is measured
from; a length is positive, negative or zero, and a negative one names the bytes before the start.
`kal_fs_lock` and `kal_fs_unlock` take a start and a length, both unsigned, of which the length is
that of the bytes after the start or, where it is zero, of all of them.

Where the file stands, how long it is and what the environment answers are parameters.

## Main definitions

* `Flock`, `Flock.bytes`: the structure a program passes, and the bytes it names
* `RangeCall`: what is asked of the environment
* `PortState.fcntlLock`: `fcntl` with `F_SETLK`, `F_SETLKW` and their `F_OFD` forms

## Main results

* `recordLock_kept_iff`: when the bytes that are locked are those the structure names
-/

namespace OpenkalMusl

def fRdlck : Int16 := 0
def fWrlck : Int16 := 1
def fUnlck : Int16 := 2

def seekSet : Int16 := 0
def seekCur : Int16 := 1
def seekEnd : Int16 := 2

/-- `struct flock`, without the field of an enquiry. -/
structure Flock where
  lType : Int16
  lWhence : Int16
  lStart : Int
  lLen : Int
  lStart_inLong : InLong lStart := by decide
  lLen_inLong : InLong lLen := by decide

/-- The commands that set a lock. -/
inductive LockCommand where
  | setlk | setlkw | ofdSetlk | ofdSetlkw
  deriving DecidableEq, Repr

/-- Whether a command waits. -/
def LockCommand.waits : LockCommand → Bool
  | .setlk | .ofdSetlk => false
  | .setlkw | .ofdSetlkw => true

/-- What is asked of the environment. -/
inductive RangeCall where
  | lock (start len : ℕ) (shared wait : Bool)
  | unlock (start len : ℕ)
  deriving DecidableEq, Repr

/-- Where an open file stands, how many bytes it has, and what is answered when it is asked where it
stands and when a range is locked or unlocked. -/
structure FileStand where
  here : ℕ
  size : ℕ
  seek : Option KalError
  range : Option KalError
  here_lt : here < 2 ^ 64 := by decide

/-- What `fcntl` answers, and what it asked of the environment. -/
structure LockOutcome where
  result : Except Errno Unit
  asked : Option RangeCall

namespace LockOutcome

/-- An answer given without asking the environment. -/
def refuse (e : Errno) : LockOutcome := ⟨.error e, none⟩

/-- The environment's answer to what is asked of it. -/
def ask (stand : FileStand) (call : RangeCall) : LockOutcome where
  result :=
    match stand.range with
    | none => .ok ()
    | some e => .error (okmErrno e)
  asked := some call

end LockOutcome

/-- The start that is handed on, or the refusal of where it is measured from. -/
def lockStart (fl : Flock) (stand : FileStand) : Option ℕ :=
  if fl.lWhence = seekSet then some (toU64 fl.lStart)
  else if fl.lWhence = seekCur then
    match stand.seek with
    -- whatever the environment answers, `EINVAL` is reported
    | some _ => none
    | none => some ((stand.here + toU64 fl.lStart) % 2 ^ 64)
  else none -- `SEEK_END` is among these

/-- What is done for a structure, of a regular file. -/
def setRecordLock (cmd : LockCommand) (fl : Flock) (stand : FileStand) : LockOutcome :=
  match lockStart fl stand with
  | none => .refuse .einval
  | some start =>
    let len := toU64 fl.lLen
    -- a type that is not one of the three is taken for `F_WRLCK`
    if fl.lType = fUnlck then .ask stand (.unlock start len)
    else .ask stand (.lock start len (fl.lType == fRdlck) cmd.waits)

/-- `SYS_fcntl` with one of the commands that set a lock. -/
def PortState.fcntlLock (w : PortState) (fd : Int) (cmd : LockCommand) (fl : Option Flock)
    (stand : FileStand) : LockOutcome :=
  match w.okmDescOf fd with
  | none => .refuse .ebadf
  | some d =>
    if (w.desc d).kind ≠ .file then .refuse .ebadf
    else
      match fl with
      | none => .refuse .efault
      | some fl => setRecordLock cmd fl stand

/-! ## The bytes that are named -/

namespace Flock

/-- The place the start is measured from. -/
def base (fl : Flock) (stand : FileStand) : Option Int :=
  if fl.lWhence = seekSet then some 0
  else if fl.lWhence = seekCur then some stand.here
  else if fl.lWhence = seekEnd then some stand.size
  else none

/-- The first byte, counted from the place the start is measured from. -/
def first (fl : Flock) (base : Int) : Int := base + fl.lStart + min fl.lLen 0

/-- A byte is among those of a start and a length, each of the three forms of which is one. -/
def Names (fl : Flock) (base n : Int) : Prop :=
  fl.first base ≤ n ∧
    (fl.lLen < 0 → n < base + fl.lStart) ∧ (0 < fl.lLen → n < base + fl.lStart + fl.lLen)

/-- The bytes of a structure begin at no negative place, and their first, and their last where there
is one, are places of a file. -/
def InFile (fl : Flock) (base : Int) : Prop :=
  0 ≤ fl.first base ∧ fl.first base < 2 ^ 63 ∧ ∀ n, fl.lLen ≠ 0 → fl.Names base n → n < 2 ^ 63

/-- The type is one of the three. -/
def TypeKnown (fl : Flock) : Prop :=
  fl.lType = fRdlck ∨ fl.lType = fWrlck ∨ fl.lType = fUnlck

/-- The structure names bytes. -/
def WellFormed (fl : Flock) (stand : FileStand) : Prop :=
  fl.TypeKnown ∧ ∃ base ∈ fl.base stand, fl.InFile base

/-- The bytes a structure names. -/
def bytes (fl : Flock) (stand : FileStand) : Set Int :=
  {n | ∃ base ∈ fl.base stand, fl.Names base n}

end Flock

namespace RangeCall

/-- The bytes of a start and a length, as the environment takes them. -/
def bytes : RangeCall → Set Int
  | lock start len _ _ | unlock start len => {n | start ≤ n ∧ (len ≠ 0 → n < start + len)}

/-- The mode is that of the type. -/
def HasMode (type : Int16) : RangeCall → Prop
  | lock _ _ shared _ => if shared then type = fRdlck else type = fWrlck
  | unlock _ _ => type = fUnlck

end RangeCall

/-- **What is promised of a record lock**: what is asked of the environment is of a structure that
names bytes, with these bytes and its mode; and a structure that names none is refused before
anything is asked. -/
structure RecordLockKept (fl : Flock) (stand : FileStand) (o : LockOutcome) : Prop where
  covers : ∀ call ∈ o.asked,
    fl.WellFormed stand ∧ call.bytes = fl.bytes stand ∧ call.HasMode fl.lType
  refused : ¬fl.WellFormed stand → o.asked = none ∧ o.result = .error .einval

/-! ## The bytes that are locked -/

section Ranges

variable {fl : Flock} {base : Int}

/-- A length that is not negative names a range from the start on. -/
theorem names_iff (hlen : 0 ≤ fl.lLen) (n : Int) :
    fl.Names base n ↔
      base + fl.lStart ≤ n ∧ (fl.lLen ≠ 0 → n < base + fl.lStart + fl.lLen) := by
  unfold Flock.Names Flock.first
  rw [min_eq_right hlen]
  omega

/-- A negative length names the byte before the start, and none after it. -/
theorem names_negative (hlen : fl.lLen < 0) (n : Int) :
    fl.Names base n ↔ base + fl.lStart + fl.lLen ≤ n ∧ n < base + fl.lStart := by
  unfold Flock.Names Flock.first
  rw [min_eq_left hlen.le]
  omega

theorem toU64_of_nonneg {n : Int} (h : 0 ≤ n) (hlt : n < 2 ^ 64) : (toU64 n : Int) = n := by
  rw [toU64]
  omega

/-- The sum that is reduced is the one that is meant, where that one is a number of the type. -/
theorem add_toU64 {here : ℕ} {start : Int} (h : 0 ≤ here + start) (hlt : here + start < 2 ^ 64) :
    (((here + toU64 start) % 2 ^ 64 : ℕ) : Int) = here + start := by
  rw [toU64]
  omega

theorem toU64_eq_zero_iff {n : Int} (h : InLong n) : toU64 n = 0 ↔ n = 0 := by
  rw [toU64]
  obtain ⟨hle, hlt⟩ := h
  omega

/-- The start of a structure that names bytes is a number of the type. -/
theorem Flock.InFile.start_lt (h : fl.InFile base) :
    0 ≤ base + fl.lStart ∧ base + fl.lStart < 2 ^ 64 := by
  obtain ⟨hfirst, hlt, hlast⟩ := h
  unfold Flock.first at hfirst hlt
  by_cases hlen : fl.lLen < 0
  · rw [min_eq_left hlen.le] at hfirst hlt
    -- the byte before the start is named, and so a place of a file
    have hnames : fl.Names base (base + fl.lStart - 1) := by
      rw [names_negative hlen]
      omega
    have hbefore := hlast _ hlen.ne hnames
    omega
  · rw [min_eq_right (not_lt.mp hlen)] at hfirst hlt
    omega

/-- **A length handed on names the bytes of the structure** exactly where it is not negative. -/
theorem range_eq_iff {start : ℕ} (hstart : (start : Int) = base + fl.lStart) :
    (∀ n : Int, (start ≤ n ∧ (toU64 fl.lLen ≠ 0 → n < start + toU64 fl.lLen)) ↔ fl.Names base n) ↔
      0 ≤ fl.lLen := by
  have hlong := fl.lLen_inLong
  constructor
  · intro hall
    by_contra hneg
    rw [not_le] at hneg
    -- the start is locked, and not named
    have hnames := (hall start).mp ⟨le_refl _, fun hne => by omega⟩
    rw [names_negative hneg] at hnames
    omega
  · intro hlen n
    have hlt : fl.lLen < 2 ^ 64 := by
      have h63 := hlong.2
      omega
    rw [names_iff hlen, hstart, toU64_of_nonneg hlen hlt, ne_eq, toU64_eq_zero_iff hlong]

end Ranges

section Kept

variable {fl : Flock} {stand : FileStand} {cmd : LockCommand}

theorem lockStart_eq_some {start : ℕ} (h : lockStart fl stand = some start) :
    ∃ base, fl.base stand = some base ∧
      (fl.InFile base → (start : Int) = base + fl.lStart) := by
  unfold lockStart at h
  unfold Flock.base
  by_cases hset : fl.lWhence = seekSet
  · rw [if_pos hset] at h ⊢
    obtain rfl := Option.some.inj h
    refine ⟨0, rfl, fun hfile => ?_⟩
    obtain ⟨hle, hlt⟩ := hfile.start_lt
    rw [zero_add] at hle hlt ⊢
    exact toU64_of_nonneg hle hlt
  · rw [if_neg hset] at h ⊢
    by_cases hcur : fl.lWhence = seekCur
    · rw [if_pos hcur] at h ⊢
      refine ⟨stand.here, rfl, fun hfile => ?_⟩
      cases hseek : stand.seek with
      | some e => simp [hseek] at h
      | none =>
        -- the sum is one of machine words, which a start in the file does not leave
        simp only [hseek, Option.some.injEq] at h
        obtain ⟨hle, hlt⟩ := hfile.start_lt
        rw [← h]
        exact add_toU64 hle hlt
    · rw [if_neg hcur] at h
      cases h

/-- Nothing is asked of the environment of a start that is refused. -/
theorem lockStart_eq_none_iff :
    lockStart fl stand = none ↔
      (fl.lWhence = seekCur ∧ stand.seek ≠ none) ∨
        (fl.lWhence ≠ seekSet ∧ fl.lWhence ≠ seekCur) := by
  unfold lockStart
  by_cases hset : fl.lWhence = seekSet
  · rw [if_pos hset, hset]
    exact iff_of_false nofun (by simp [seekSet, seekCur])
  · rw [if_neg hset]
    by_cases hcur : fl.lWhence = seekCur
    · rw [if_pos hcur]
      cases hseek : stand.seek with
      | some e => simp [hcur]
      | none => simp [hcur]
    · rw [if_neg hcur]
      exact iff_of_true rfl (Or.inr ⟨hset, hcur⟩)

/-- What is asked of the environment for a start. -/
theorem setRecordLock_asked (cmd : LockCommand) {start : ℕ} (h : lockStart fl stand = some start) :
    ∃ call, (setRecordLock cmd fl stand).asked = some call ∧
      call.bytes = {n : Int | start ≤ n ∧ (toU64 fl.lLen ≠ 0 → n < start + toU64 fl.lLen)} ∧
      (fl.TypeKnown → call.HasMode fl.lType) := by
  unfold setRecordLock
  rw [h]
  dsimp only
  by_cases hun : fl.lType = fUnlck
  · rw [if_pos hun]
    exact ⟨_, rfl, rfl, fun _ => hun⟩
  · rw [if_neg hun]
    refine ⟨_, rfl, rfl, fun hknown => ?_⟩
    unfold RangeCall.HasMode
    by_cases hrd : fl.lType = fRdlck
    · simp [hrd]
    · simpa [hrd] using hknown.resolve_left hrd |>.resolve_right hun

/-- **A structure that is asked for is kept** exactly where it names bytes and its length is not
negative. -/
theorem setRecordLock_kept_iff {start : ℕ} (h : lockStart fl stand = some start) :
    RecordLockKept fl stand (setRecordLock cmd fl stand) ↔
      fl.WellFormed stand ∧ 0 ≤ fl.lLen := by
  obtain ⟨base, hbase, hstart⟩ := lockStart_eq_some h
  obtain ⟨call, hasked, hbytes, hmode⟩ := setRecordLock_asked cmd h
  -- the bytes asked for are the bytes named but for a length below zero
  have hset : fl.WellFormed stand → (call.bytes = fl.bytes stand ↔ 0 ≤ fl.lLen) := by
    rintro ⟨-, base', hbase', hfile⟩
    obtain rfl : base = base' := Option.some.inj (hbase.symm.trans hbase')
    rw [← range_eq_iff (hstart hfile), hbytes, Set.ext_iff]
    simp [Flock.bytes, hbase]
  constructor
  · intro hkept
    obtain ⟨hform, hcovers, -⟩ := hkept.covers call hasked
    exact ⟨hform, (hset hform).mp hcovers⟩
  · rintro ⟨hform, hlen⟩
    refine ⟨fun call' hcall' => ?_, fun hnot => absurd hform hnot⟩
    obtain rfl : call = call' := Option.some.inj (hasked.symm.trans hcall')
    exact ⟨hform, (hset hform).mpr hlen, hmode hform.1⟩

end Kept

/-- **When a record lock covers the bytes its structure names**: exactly where it is refused for
where its start is measured from, or where the structure names bytes and its length is not
negative. -/
theorem recordLock_kept_iff {w : PortState} {fd : Int} {d : Fin okmMaxDesc}
    (hopen : w.okmDescOf fd = some d) (hfile : (w.desc d).kind = .file) (cmd : LockCommand)
    (fl : Flock) (stand : FileStand) :
    RecordLockKept fl stand (w.fcntlLock fd cmd (some fl) stand) ↔
      (fl.lWhence = seekCur ∧ stand.seek ≠ none) ∨
        (fl.lWhence ≠ seekSet ∧ fl.lWhence ≠ seekCur) ∨
          (fl.WellFormed stand ∧ 0 ≤ fl.lLen) := by
  have hcall : w.fcntlLock fd cmd (some fl) stand = setRecordLock cmd fl stand := by
    simp [PortState.fcntlLock, hopen, hfile]
  rw [hcall, ← or_assoc, ← lockStart_eq_none_iff]
  cases hstart : lockStart fl stand with
  | none =>
    have hrefuse : setRecordLock cmd fl stand = .refuse .einval := by
      unfold setRecordLock
      rw [hstart]
    rw [hrefuse]
    exact iff_of_true ⟨nofun, fun _ => ⟨rfl, rfl⟩⟩ (Or.inl rfl)
  | some start =>
    rw [setRecordLock_kept_iff hstart]
    simp

/-- A file of five bytes that stands at its first. -/
def atStart : FileStand where
  here := 0
  size := 5
  seek := none
  range := none

/-- A shared lock of the two bytes from the second on. -/
theorem recordLock_kept_iff_shared :
    RecordLockKept { lType := fRdlck, lWhence := seekSet, lStart := 1, lLen := 2 } atStart
      (oneFileTable.fcntlLock 3 .setlk
        (some { lType := fRdlck, lWhence := seekSet, lStart := 1, lLen := 2 }) atStart) := by
  refine (recordLock_kept_iff (d := ⟨3, by decide⟩) (by decide +kernel) (by decide +kernel)
    .setlk _ atStart).mpr (Or.inr (Or.inr ⟨⟨Or.inl rfl, 0, rfl, ?_⟩, by decide⟩))
  refine ⟨by decide, by decide, fun n _ hn => ?_⟩
  have hlt := hn.2.2 (by decide)
  dsimp only at hlt
  omega

/-- The lock asked for of the five bytes before the tenth is one of all bytes from the tenth on. -/
theorem negative_length_locks_after :
    ¬ ∀ (w : PortState) (fd : Int) (d : Fin okmMaxDesc), w.okmDescOf fd = some d →
      (w.desc d).kind = .file → ∀ (cmd : LockCommand) (fl : Flock) (stand : FileStand),
        RecordLockKept fl stand (w.fcntlLock fd cmd (some fl) stand) := by
  intro hall
  let fl : Flock := { lType := fWrlck, lWhence := seekSet, lStart := 10, lLen := -5 }
  have hkept := hall oneFileTable 3 ⟨3, by decide⟩ (by decide +kernel) (by decide +kernel) .setlk
    fl atStart
  have hasked : (oneFileTable.fcntlLock 3 .setlk (some fl) atStart).asked =
      some (.lock 10 (2 ^ 64 - 5) false false) := by
    decide +kernel
  obtain ⟨-, hbytes, -⟩ := hkept.covers _ hasked
  -- the tenth byte is asked for, and the bytes named lie before it
  have hten : (10 : Int) ∈ (RangeCall.lock 10 (2 ^ 64 - 5) false false).bytes :=
    ⟨by decide, fun _ => by decide⟩
  rw [hbytes] at hten
  obtain ⟨base, hbase, -, hbefore, -⟩ := hten
  obtain rfl : (0 : Int) = base := Option.some.inj hbase
  have hlt := hbefore (by decide)
  simp [fl] at hlt

end OpenkalMusl
