import OpenkalMusl.Names.NullDevice
import OpenkalMusl.Time.Bounds

/-!
# Times of files

`utimensat` and `futimens` hand the environment a time as a count of nanoseconds, which they add up
from seconds and a fraction of one; what the environment keeps is that count, and `fill_kstat` takes
it apart again.

Of the environment it is kept which node a name and which node an open file is, and for each node
the count it was given last. What it answers stays a parameter, before the call and at a later
enquiry.

## Main definitions

* `Volume`: the nodes that names and open files are
* `Volume.utimensat`: the call, with the counts it leaves
* `statAgain`: the enquiry that asks for the same node

## Main results

* `Volume.utimensat_result`: what the call answers is what it answers without the counts
* `Volume.timeKept_iff`: when a time that is set is the one that is reported
-/

namespace OpenkalMusl

open PortState

/-- The nodes of a volume: a file that is opened by a name is the node the name is. -/
structure Volume (env : NameEnv) where
  node : At → ℕ
  nodeOf : Handle → ℕ
  opened : ∀ a o f, env.openFile a o = .ok f → nodeOf f = node a

/-- The count that is kept for each node. -/
abbrev Stamps := ℕ → ℕ

namespace Timespec

/-- The fraction is one, nothing is negative, and the nanoseconds can be counted. -/
def Representable (t : Timespec) : Prop := t.WellFormed ∧ t.total < 2 ^ 64

/-- The time is not one that is said otherwise. -/
def Stated (t : Timespec) : Prop := t.nsec ≠ utimeNow ∧ t.nsec ≠ utimeOmit

/-- The two fields, as `struct kstat` has them. -/
def Shown (t : Timespec) (shown : StatTime) : Prop :=
  (shown.sec : Int) = t.sec ∧ (shown.nsec : Int) = t.nsec

end Timespec

namespace Volume

variable {env : NameEnv}

/-- `kal_fs_set_modified_at`: the volume stores the count it is given. -/
def setModifiedAt (v : Volume env) (s : Stamps) (a : At) (count : ℕ) : Stamps × Option KalError :=
  match env.setModifiedAt a count with
  | none => (Function.update s (v.node a) count, none)
  | some e => (s, some e)

/-- `kal_fs_set_modified`. -/
def setModified (v : Volume env) (s : Stamps) (h : Handle) (count : ℕ) :
    Stamps × Option KalError :=
  match env.setModified h count with
  | none => (Function.update s (v.nodeOf h) count, none)
  | some e => (s, some e)

/-- By name, and through an open file where that operation is absent. -/
def setTime (v : Volume env) (s : Stamps) (a : At) (count : ℕ) (write : Bool) :
    Stamps × Except Errno NameAnswer :=
  let (s, e) := v.setModifiedAt s a count
  if e ≠ some .notSupported then (s, (Asking.ofKal e).result)
  else
    match env.openFile a ⟨true, write, false, false, false, false⟩ with
    | .error e => (s, .error (okmErrno e))
    | .ok f =>
      let (s, e) := v.setModified s f count
      (s, (Asking.ofKal e).result)

/-- `SYS_utimensat`, with the counts it leaves; musl's `futimens` passes no name. -/
def utimensat (v : Volume env) (w : PortState) (s : Stamps) (dirfd : Int) (path : Option Text)
    (times : Option (Int × Int)) : Stamps × Except Errno NameAnswer :=
  -- the access time is not read, and a time to be left alone leaves it
  if times.any fun t => t.2 = utimeOmit then (s, .ok .done)
  else
    let count := whenOf env times
    match path with
    | none =>
      match w.okmDescOf dirfd with
      | none => (s, .error .ebadf)
      | some d =>
        if (w.desc d).kind ≠ .file then (s, .error .ebadf)
        else
          let (s, e) := v.setModified s (w.desc d).file count
          (s, (Asking.ofKal e).result)
    | some path =>
      match w.okmResolve dirfd (some path) false with
      | .error e => (s, .error e)
      | .ok a =>
        match env.info a true with
        | .error e =>
          if e ≠ .notSupported then (s, .error (okmErrno e)) else v.setTime s a count true
        | .ok info =>
          if info.kind = .absent then (s, .error .enoent)
          -- a directory cannot be opened for writing
          else v.setTime s a count (info.kind ≠ .directory)

/-- What a later environment answers, with the counts that are kept. -/
def shown (v : Volume env) (s : Stamps) (later : NameEnv) : NameEnv :=
  { later with
    info := fun a resolve => (later.info a resolve).map fun info =>
      -- of a link that is not followed the count is not that of the node
      if resolve then { info with modifiedNs := s (v.node a) } else info
    fileInfo := fun h => (later.fileInfo h).map fun info =>
      { info with modifiedNs := s (v.nodeOf h) } }

end Volume

/-- The enquiry that asks for the node whose time was set, by its descriptor or by its name. -/
def statAgain (w : PortState) (env : NameEnv) (dirfd : Int) (path : Option Text) :
    Except Errno NameAnswer :=
  match path with
  | none => (w.doFstat env dirfd).result
  | some path => (w.doFstatat env dirfd (some path) 0).result

/-- **What is promised of a time that is set**: it is the time that is reported, and one that cannot
be represented is refused and leaves every count. -/
structure TimeKept {env : NameEnv} (v : Volume env) (w : PortState) (s : Stamps) (dirfd : Int)
    (path : Option Text) (t : Timespec) : Prop where
  reported : (v.utimensat w s dirfd path (some (t.sec, t.nsec))).2 = .ok .done →
    ∀ later st,
      statAgain w (v.shown (v.utimensat w s dirfd path (some (t.sec, t.nsec))).1 later) dirfd path =
        .ok (.stat st) → t.Shown st.mtime
  refused : ¬t.Representable →
    v.utimensat w s dirfd path (some (t.sec, t.nsec)) = (s, .error .einval)

/-! ## Where a time is set -/

/-- What a time is set of: an open file, or a name, which where it has to be opened is opened for
writing or not. -/
inductive Stamped where
  | file (h : Handle)
  | name (a : At) (write : Bool)
  deriving DecidableEq

namespace Stamped

/-- What is answered when a count is set there, through an open file where that is the only way. -/
def refusal (env : NameEnv) (count : ℕ) : Stamped → Option KalError
  | file h => env.setModified h count
  | name a write =>
    if env.setModifiedAt a count = some .notSupported then
      match env.openFile a ⟨true, write, false, false, false, false⟩ with
      | .error e => some e
      | .ok f => env.setModified f count
    else env.setModifiedAt a count

def node {env : NameEnv} (v : Volume env) : Stamped → ℕ
  | file h => v.nodeOf h
  | name a _ => v.node a

end Stamped

/-- What the call finds to set a time of, before it is asked to be set. -/
def stampedPlace (w : PortState) (env : NameEnv) (dirfd : Int) (path : Option Text) :
    Except Errno Stamped :=
  match path with
  | none =>
    match w.okmDescOf dirfd with
    | none => .error .ebadf
    | some d => if (w.desc d).kind ≠ .file then .error .ebadf else .ok (.file (w.desc d).file)
  | some path =>
    match w.okmResolve dirfd (some path) false with
    | .error e => .error e
    | .ok a =>
      match env.info a true with
      | .error e => if e ≠ .notSupported then .error (okmErrno e) else .ok (.name a true)
      | .ok info =>
        if info.kind = .absent then .error .enoent else .ok (.name a (info.kind ≠ .directory))

/-- A count is set there. -/
def Stores (w : PortState) (env : NameEnv) (dirfd : Int) (path : Option Text) (count : ℕ) : Prop :=
  ∃ p, stampedPlace w env dirfd path = .ok p ∧ p.refusal env count = none

/-- The name is refused as invalid, or the environment refuses the enquiry or the count so. -/
def RefusesInvalid (w : PortState) (env : NameEnv) (dirfd : Int) (path : Option Text)
    (count : ℕ) : Prop :=
  stampedPlace w env dirfd path = .error .einval ∨
    ∃ p, stampedPlace w env dirfd path = .ok p ∧ p.refusal env count = some .invalid

namespace Volume

variable {env : NameEnv} {v : Volume env} {w : PortState} {s : Stamps} {dirfd : Int}
  {path : Option Text}

theorem setModified_eq (h : Handle) (count : ℕ) :
    v.setModified s h count =
      match env.setModified h count with
      | none => (Function.update s (v.nodeOf h) count, none)
      | some e => (s, some e) := rfl

/-- A time that is set by name is set of the node the name is. -/
theorem setTime_eq (a : At) (count : ℕ) (write : Bool) :
    v.setTime s a count write =
      match (Stamped.name a write).refusal env count with
      | none => (Function.update s (v.node a) count, .ok .done)
      | some e => (s, .error (okmErrno e)) := by
  unfold setTime setModifiedAt Stamped.refusal
  dsimp only
  by_cases habsent : env.setModifiedAt a count = some .notSupported
  · -- through an open file, which is the node the name is
    rw [if_pos habsent, habsent]
    simp only [ne_eq, not_true, if_false]
    cases hopen : env.openFile a ⟨true, write, false, false, false, false⟩ with
    | error e => rfl
    | ok f =>
      simp only [setModified_eq]
      cases env.setModified f count with
      | none =>
        rw [← v.opened a _ f hopen]
        rfl
      | some e => rfl
  · rw [if_neg habsent]
    cases hset : env.setModifiedAt a count with
    | none => simp [Asking.ofKal, Asking.answers]
    | some e =>
      rw [hset] at habsent
      simp [Asking.ofKal, Asking.fails, habsent]

/-- **A call with a time**: what it finds is asked to set the count, and keeps it where it does. -/
theorem utimensat_eq {t : Timespec} (ht : t.Stated) :
    v.utimensat w s dirfd path (some (t.sec, t.nsec)) =
      match stampedPlace w env dirfd path with
      | .error e => (s, .error e)
      | .ok p =>
        match p.refusal env (toU64 t.total) with
        | none => (Function.update s (p.node v) (toU64 t.total), .ok .done)
        | some e => (s, .error (okmErrno e)) := by
  have hcount : whenOf env (some (t.sec, t.nsec)) = toU64 t.total := if_neg ht.1
  unfold utimensat stampedPlace
  simp only [Option.any_some, decide_eq_true_eq, if_neg ht.2, hcount]
  cases path with
  | none =>
    dsimp only
    cases w.okmDescOf dirfd with
    | none => rfl
    | some d =>
      dsimp only
      by_cases hkind : (w.desc d).kind ≠ .file
      · rw [if_pos hkind, if_pos hkind]
      · rw [if_neg hkind, if_neg hkind]
        simp only [Stamped.refusal, setModified_eq, Stamped.node]
        cases env.setModified (w.desc d).file (toU64 t.total) with
        | none => rfl
        | some e => rfl
  | some path =>
    dsimp only
    cases w.okmResolve dirfd (some path) false with
    | error e => rfl
    | ok a =>
      dsimp only
      cases env.info a true with
      | error e =>
        -- where nothing tells what the name is, the time is set all the same
        dsimp only
        by_cases habsent : e ≠ .notSupported
        · rw [if_pos habsent, if_pos habsent]
        · rw [if_neg habsent, if_neg habsent]
          exact setTime_eq a _ true
      | ok info =>
        dsimp only
        by_cases hkind : info.kind = .absent
        · rw [if_pos hkind, if_pos hkind]
        · rw [if_neg hkind, if_neg hkind]
          exact setTime_eq a _ _

/-- What an operation answers does not depend on the counts. -/
theorem setTime_result (a : At) (count : ℕ) (write : Bool) :
    (v.setTime s a count write).2 = (PortState.utimensat.setTime env a count write).result := by
  rw [setTime_eq]
  unfold Stamped.refusal PortState.utimensat.setTime
  dsimp only
  by_cases habsent : env.setModifiedAt a count = some .notSupported
  · rw [if_pos habsent, if_pos habsent]
    cases env.openFile a ⟨true, write, false, false, false, false⟩ with
    | error e => rfl
    | ok f =>
      dsimp only
      cases env.setModified f count with
      | none => rfl
      | some e => rfl
  · rw [if_neg habsent, if_neg habsent]
    cases env.setModifiedAt a count with
    | none => rfl
    | some e => rfl

/-- **The call answers** what it answers without the counts. -/
theorem utimensat_result (times : Option (Int × Int)) :
    (v.utimensat w s dirfd path times).2 = (w.utimensat env dirfd path times).result := by
  unfold utimensat PortState.utimensat
  by_cases homit : (times.any fun t => decide (t.2 = utimeOmit)) = true
  · rw [if_pos homit, if_pos homit]
    rfl
  · rw [if_neg homit, if_neg homit]
    cases path with
    | none =>
      dsimp only
      cases w.okmDescOf dirfd with
      | none => rfl
      | some d =>
        dsimp only
        by_cases hkind : (w.desc d).kind ≠ .file
        · rw [if_pos hkind, if_pos hkind]
          rfl
        · rw [if_neg hkind, if_neg hkind]
          simp only [setModified_eq]
          cases env.setModified (w.desc d).file (whenOf env times) with
          | none => rfl
          | some e => rfl
    | some path =>
      unfold resolving
      dsimp only
      cases w.okmResolve dirfd (some path) false with
      | error e => rfl
      | ok a =>
        simp only [Asking.passing]
        cases env.info a true with
        | error e =>
          dsimp only
          by_cases habsent : e ≠ .notSupported
          · rw [if_pos habsent, if_pos habsent]
            rfl
          · rw [if_neg habsent, if_neg habsent]
            exact setTime_result a _ true
        | ok info =>
          dsimp only
          by_cases hkind : info.kind = .absent
          · rw [if_pos hkind, if_pos hkind]
            rfl
          · rw [if_neg hkind, if_neg hkind]
            exact setTime_result a _ _

end Volume

/-! ## What is reported -/

section Reported

variable {env : NameEnv} {v : Volume env} {w : PortState} {s : Stamps} {dirfd : Int}
  {path : Option Text} {t : Timespec}

/-- A time that can be represented is taken apart as it was put together. -/
theorem shown_of_representable (h : t.Representable) :
    t.Shown ⟨toU64 t.total / 1000000000, toU64 t.total % 1000000000⟩ := by
  obtain ⟨⟨hsec, hnsec, hlt⟩, htotal⟩ := h
  unfold Timespec.Shown
  unfold Timespec.total at htotal ⊢
  have hcount : (toU64 (t.sec * 1000000000 + t.nsec) : Int) = t.sec * 1000000000 + t.nsec := by
    rw [toU64]
    omega
  constructor
  · dsimp only
    omega
  · dsimp only
    omega

theorem fillKstat_mtime (info : NodeInfo) :
    (fillKstat info).mtime = ⟨info.modifiedNs / 1000000000, info.modifiedNs % 1000000000⟩ := rfl

/-- An enquiry through an open file shows the count of the node the file is. -/
theorem doFstat_mtime {d : Fin okmMaxDesc} (hd : w.okmDescOf dirfd = some d)
    (hkind : (w.desc d).kind = .file) {s' : Stamps} {later : NameEnv} {st : Kstat}
    (hst : (w.doFstat (v.shown s' later) dirfd).result = .ok (.stat st)) :
    st.mtime = ⟨s' (v.nodeOf (w.desc d).file) / 1000000000,
      s' (v.nodeOf (w.desc d).file) % 1000000000⟩ := by
  unfold doFstat at hst
  simp only [hd, hkind, Volume.shown] at hst
  cases hinfo : later.fileInfo (w.desc d).file with
  | error e => simp [hinfo, Except.map, Asking.fails] at hst
  | ok info =>
    simp only [hinfo, Except.map, Asking.answers, Except.ok.injEq, NameAnswer.stat.injEq] at hst
    rw [← hst, fillKstat_mtime]

/-- An enquiry by a name, other than the null device's, shows the count of the node the name is. -/
theorem doFstatat_mtime {path : Text} {a : At}
    (hr : w.okmResolve dirfd (some path) false = .ok a)
    (hnull : w.okmNullName dirfd (some path) = false) {s' : Stamps} {later : NameEnv} {st : Kstat}
    (hst : (w.doFstatat (v.shown s' later) dirfd (some path) 0).result = .ok (.stat st)) :
    st.mtime = ⟨s' (v.node a) / 1000000000, s' (v.node a) % 1000000000⟩ := by
  unfold doFstatat resolving at hst
  rw [if_neg (fun h => by simp [hasFlag] at h), if_neg (by simp [hnull])] at hst
  have hresolve : (!hasFlag 0 atSymlinkNofollow) = true := rfl
  simp only [hr, Asking.passing, hresolve, Volume.shown, if_true] at hst
  cases hinfo : later.info a true with
  | error e => simp [hinfo, Except.map, Asking.fails] at hst
  | ok info =>
    simp only [hinfo, Except.map] at hst
    split_ifs at hst with habsent
    · cases hst
    · simp only [Asking.answers, Except.ok.injEq, NameAnswer.stat.injEq] at hst
      rw [← hst, fillKstat_mtime]

/-- The enquiry after a time was set shows the count that is kept for what was found, if the name is
not the null device's. -/
theorem statAgain_mtime {p : Stamped} (hp : stampedPlace w env dirfd path = .ok p)
    (hnull : w.okmNullName dirfd path = false) {s' : Stamps} {later : NameEnv} {st : Kstat}
    (hst : statAgain w (v.shown s' later) dirfd path = .ok (.stat st)) :
    st.mtime = ⟨s' (p.node v) / 1000000000, s' (p.node v) % 1000000000⟩ := by
  unfold stampedPlace at hp
  unfold statAgain at hst
  cases path with
  | none =>
    dsimp only at hp hst
    cases hd : w.okmDescOf dirfd with
    | none => simp [hd] at hp
    | some d =>
      simp only [hd] at hp
      split_ifs at hp with hkind
      obtain rfl := Except.ok.inj hp
      exact doFstat_mtime hd (not_not.mp hkind) hst
  | some path =>
    dsimp only at hp hst
    cases hr : w.okmResolve dirfd (some path) false with
    | error e => simp [hr] at hp
    | ok a =>
      -- in both ways of setting it the time is of the node the name resolves to
      have hnode : p.node v = v.node a := by
        simp only [hr] at hp
        split at hp
        · split_ifs at hp
          obtain rfl := Except.ok.inj hp
          rfl
        · split_ifs at hp
          obtain rfl := Except.ok.inj hp
          rfl
      rw [hnode]
      exact doFstatat_mtime hr hnull hst

/-- The null device reports the first time there is. -/
theorem statAgain_nullName (hnull : w.okmNullName dirfd path = true) (later : NameEnv) :
    statAgain w later dirfd path = .ok (.stat nullKstat) := by
  unfold statAgain
  cases path with
  | none => cases hnull
  | some path =>
    dsimp only
    unfold doFstatat
    rw [if_neg (fun h => by simp [hasFlag] at h), if_pos hnull]
    rfl

/-- A call with a time that is refused as invalid leaves the counts. -/
theorem utimensat_eq_einval_iff (ht : t.Stated) :
    v.utimensat w s dirfd path (some (t.sec, t.nsec)) = (s, .error .einval) ↔
      RefusesInvalid w env dirfd path (toU64 t.total) := by
  rw [Volume.utimensat_eq ht]
  unfold RefusesInvalid
  cases hp : stampedPlace w env dirfd path with
  | error e => simp
  | ok p =>
    cases hset : p.refusal env (toU64 t.total) with
    | none => simp [hset]
    | some e =>
      have hinvalid : okmErrno e = .einval ↔ e = .invalid := okmErrno_eq_iff .invalid (by decide)
      simp [hset, hinvalid]

/-- A call with a time is accepted where the count is set. -/
theorem utimensat_done_iff (ht : t.Stated) :
    (v.utimensat w s dirfd path (some (t.sec, t.nsec))).2 = .ok .done ↔
      Stores w env dirfd path (toU64 t.total) := by
  rw [Volume.utimensat_eq ht]
  unfold Stores
  cases hp : stampedPlace w env dirfd path with
  | error e => simp
  | ok p =>
    cases hset : p.refusal env (toU64 t.total) with
    | none => simp [hset]
    | some e => simp [hset]

/-- A time that can be represented and is set of another node than the null device is reported. -/
theorem shown_of_stores (ht : t.Stated) (hrep : t.Representable)
    (hnull : w.okmNullName dirfd path = false)
    (hstores : Stores w env dirfd path (toU64 t.total)) {later : NameEnv} {st : Kstat}
    (hst : statAgain w (v.shown (v.utimensat w s dirfd path (some (t.sec, t.nsec))).1 later)
      dirfd path = .ok (.stat st)) : t.Shown st.mtime := by
  obtain ⟨p, hp, hset⟩ := hstores
  have hafter : (v.utimensat w s dirfd path (some (t.sec, t.nsec))).1 (p.node v) =
      toU64 t.total := by
    rw [Volume.utimensat_eq ht, hp]
    simp [hset]
  rw [statAgain_mtime hp hnull hst, hafter]
  exact shown_of_representable hrep

end Reported

/-- **When a time that is set is the one reported**: exactly where it can be represented and, if the
name is the null device's, is not set or is the first time there is; or where it cannot be and is
refused as invalid by the name or the environment. -/
theorem Volume.timeKept_iff {env : NameEnv} (v : Volume env) (w : PortState) (s : Stamps)
    (dirfd : Int) (path : Option Text) {t : Timespec} (ht : t.Stated) :
    TimeKept v w s dirfd path t ↔
      (t.Representable ∧ (w.okmNullName dirfd path = true →
        Stores w env dirfd path (toU64 t.total) → t.sec = 0 ∧ t.nsec = 0)) ∨
      (¬t.Representable ∧ RefusesInvalid w env dirfd path (toU64 t.total)) := by
  by_cases hrep : t.Representable
  · constructor
    · -- the null device reports the first time there is, whatever was set
      intro hkept
      refine Or.inl ⟨hrep, fun hnull hstores => ?_⟩
      obtain ⟨hsec, hnsec⟩ := hkept.reported ((utimensat_done_iff ht).mpr hstores) env nullKstat
        (statAgain_nullName hnull _)
      exact ⟨hsec.symm, hnsec.symm⟩
    · intro hcond
      obtain ⟨-, hnull⟩ := hcond.resolve_right fun h => h.1 hrep
      refine ⟨fun hdone later st hst => ?_, fun hnot => absurd hrep hnot⟩
      have hstores := (utimensat_done_iff ht).mp hdone
      cases hname : w.okmNullName dirfd path with
      | true =>
        rw [statAgain_nullName hname] at hst
        obtain rfl := NameAnswer.stat.inj (Except.ok.inj hst)
        obtain ⟨hsec, hnsec⟩ := hnull hname hstores
        exact ⟨hsec.symm, hnsec.symm⟩
      | false => exact shown_of_stores ht hrep hname hstores hst
  · constructor
    · intro hkept
      exact Or.inr ⟨hrep, (utimensat_eq_einval_iff ht).mp (hkept.refused hrep)⟩
    · intro hcond
      have hrefuses := (hcond.resolve_left fun h => hrep h.1).2
      have heq := (utimensat_eq_einval_iff (v := v) (s := s) ht).mpr hrefuses
      refine ⟨fun hdone => ?_, fun _ => heq⟩
      rw [heq] at hdone
      cases hdone

/-- An environment in which every name is a file, whose time can be set. -/
def NameEnv.settable : NameEnv :=
  { NameEnv.bare with
    info := fun _ _ => .ok { kind := .file, writable := true }
    setModifiedAt := fun _ _ => none }

/-- A volume of one node. -/
def oneNode : Volume .settable where
  node := fun _ => 0
  nodeOf := fun _ => 0
  opened := fun _ _ _ _ => rfl

/-- Five seconds and seven nanoseconds. -/
theorem timeKept_iff_five :
    TimeKept oneNode (System.start 1 .supplied).port (fun _ => 0) atFdcwd (some ['f'])
      { sec := 5, nsec := 7 } := by
  have hname : (System.start 1 .supplied).port.okmNullName atFdcwd (some ['f']) = false := by
    decide +kernel
  refine (Volume.timeKept_iff oneNode _ (fun _ => 0) atFdcwd (some ['f'])
    ⟨by decide, by decide⟩).mpr (Or.inl ⟨⟨⟨by decide, by decide, by decide⟩, by decide⟩, ?_⟩)
  intro hnull
  rw [hname] at hnull
  cases hnull

/-- The second before the first one is accepted. -/
theorem negative_time_accepted :
    ¬ ∀ (env : NameEnv) (v : Volume env) (w : PortState) (s : Stamps) (dirfd : Int)
      (path : Option Text) (t : Timespec), t.Stated → TimeKept v w s dirfd path t := by
  intro hall
  have hkept := hall .settable oneNode (System.start 1 .supplied).port (fun _ => 0) atFdcwd
    (some ['f']) { sec := -1, nsec := 0 } ⟨by decide, by decide⟩
  have hrefused := hkept.refused fun h => absurd h.1.1 (by decide)
  have hdone : (oneNode.utimensat (System.start 1 .supplied).port (fun _ => 0) atFdcwd
      (some ['f']) (some (-1, 0))).2 = .ok .done := by
    decide +kernel
  rw [hrefused] at hdone
  cases hdone

end OpenkalMusl
