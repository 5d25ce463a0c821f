import Mathlib.Algebra.Order.Ring.Nat
import OpenkalMusl.Transition.Ownership
import OpenkalMusl.Transition.Run

/-!
# The records of threads

`__clone`, `entry` and `reap`, as any number of contexts interleave their steps. A creator reaps
what has finished, allocates a record, numbers it, starts a context upon it and links the record
into `okm_done`; the context runs, marks its record finished and ends; a later creator's `reap`
unlinks a finished record, waits for its context with the lock released, and frees it.

A step is one access to what contexts share: the lock, the list, a field of a record, or a call of
the environment. The implementation's wait for a context returns once the context has ended.

## Main definitions

* `ClonePc`, `EntryPc`: where a context is in `__clone`, with `reap` inside it, and in `entry`
* `Threads.step`: the contexts, the list and the records
* `Threads.Owns`: who has a record: the list, or a context in `__clone`
* `Threads.Outlives`: each record is freed once, after its join, and no context uses it afterwards
* `Threads.Settled`: a record is freed only when its creator has returned

## Main results

* `inv_of_reachable`: each record is in one place, and what was done to it is what that place says
* `outlives_while_settled`: a record outlives its uses while no creator is overtaken
* `read_after_free`: a creator reads its record after another has freed it
-/

namespace OpenkalMusl

open Transition

/-- A context: the first, or the one started upon a record. -/
abbrev Runner := Option ℕ

/-- Where a context is in `__clone`. -/
inductive ClonePc where
  | idle
  /-- `reap`: before the lock, at a link of the list with the lock held, and with a record unlinked
  and the lock released. -/
  | reapLock
  | reapWalk (i : ℕ)
  | reapJoin (t : ℕ)
  | reapFree (t : ℕ)
  /-- The record is allocated, filled, numbered under the lock, and its number told. -/
  | alloc
  | fill (t : ℕ)
  | tidLock (t : ℕ)
  | tidTake (t : ℕ)
  | ptid (t : ℕ)
  | start (t : ℕ)
  /-- The start was refused, or answered with the handle that the record keeps. -/
  | refused (t : ℕ)
  | noteTask (t : ℕ)
  | linkLock (t : ℕ)
  | link (t : ℕ)
  /-- The lock is released, and the record's number is what `__clone` returns. -/
  | ret (t : ℕ)
  deriving DecidableEq

/-- Where the context upon a record is in `entry`. -/
inductive EntryPc where
  | absent
  | begin
  | running
  | clearCtid
  | markFinished
  | release
  | ended
  deriving DecidableEq

/-- The list, the records and the contexts. `hist` is what was allocated and freed, `stale` the uses
of a record that was not allocated or had been freed. -/
structure Threads where
  /-- The records allocated so far: they are numbered as they are allocated. -/
  count : ℕ
  /-- The context that holds the lock of the tables. -/
  holder : Option Runner
  /-- `okm_done`. -/
  done : List ℕ
  /-- `g_tid`, the field `tid` of the records, and the `tid` of musl's own records. -/
  gTid : BitVec 32
  recTid : ℕ → BitVec 32
  tid : Runner → BitVec 32
  finished : ℕ → Bool
  entry : ℕ → EntryPc
  call : Runner → ClonePc
  /-- How often a record's context was waited for, and whether its start was refused. -/
  joins : ℕ → ℕ
  denied : ℕ → Bool
  hist : List (Traffic ℕ)
  stale : List (Runner × ℕ)

inductive ThreadLabel where
  /-- A context calls `__clone`. -/
  | clone (c : Runner)
  | step (c : Runner)
  /-- `kal_alloc` answers null. -/
  | allocFails (c : Runner)
  /-- `kal_task_start_sized` is refused. -/
  | startFails (c : Runner)
  /-- The context upon a record takes a step of `entry`. -/
  | entry (t : ℕ)
  /-- A program started from a snapshot settles the first context's number anew. -/
  | snapshotStart (id : BitVec 64)
  deriving DecidableEq

/-- The number musl's record holds for the first context. -/
def firstTid (id : BitVec 64) : BitVec 32 :=
  let tid := id.setWidth 32
  if tid = 0 then 1 else tid

namespace Threads

/-- A program that has started no thread, whose first context has the identity `id`. -/
def start (id : BitVec 64) : Threads where
  count := 0
  holder := none
  done := []
  gTid := 1
  recTid := fun _ => 0
  tid := fun _ => firstTid id
  finished := fun _ => false
  entry := fun _ => .absent
  call := fun _ => .idle
  joins := fun _ => 0
  denied := fun _ => false
  hist := []
  stale := []

/-- The record is allocated. -/
def Alive (s : Threads) (t : ℕ) : Prop := t ∈ Traffic.holding s.hist

instance (s : Threads) (t : ℕ) : Decidable (s.Alive t) :=
  inferInstanceAs (Decidable (t ∈ Traffic.holding s.hist))

def goto (s : Threads) (c : Runner) (pc : ClonePc) : Threads :=
  { s with call := Function.update s.call c pc }

/-- The context uses records. -/
def touch (s : Threads) (c : Runner) (ts : List ℕ) : Threads :=
  { s with stale := s.stale ++ (ts.filter fun t => ¬ s.Alive t).map (Prod.mk c) }

def free (s : Threads) (t : ℕ) : Threads := { s with hist := s.hist ++ [.gave t] }

/-- The record whose `next` is the link at `i`: the first link is `okm_done` itself. -/
def linkAt (s : Threads) (i : ℕ) : List ℕ := if i = 0 then [] else (s.done[i - 1]?).toList

/-- The lock is taken where it is free. -/
def lock (s : Threads) (c : Runner) (pc : ClonePc) : Option Threads :=
  if s.holder = none then some ({ s with holder := some c }.goto c pc) else none

/-- `reap` at a link of the list. -/
def walk (s : Threads) (c : Runner) (i : ℕ) : Threads :=
  match s.done[i]? with
  | none => { s.touch c (s.linkAt i) with holder := none }.goto c .alloc
  | some t =>
    if s.finished t then
      { s.touch c (t :: s.linkAt i) with done := s.done.eraseIdx i, holder := none }.goto c
        (.reapJoin t)
    else (s.touch c (t :: s.linkAt i)).goto c (.reapWalk (i + 1))

/-- The next step of a context in `__clone`. -/
def cloneStep (s : Threads) (c : Runner) : Option Threads :=
  match s.call c with
  | .idle => none
  | .reapLock => s.lock c (.reapWalk 0)
  | .reapWalk i => some (s.walk c i)
  | .reapJoin t =>
    if s.entry t = .ended then
      some ({ s.touch c [t] with joins := Function.update s.joins t (s.joins t + 1) }.goto c
        (.reapFree t))
    else none
  | .reapFree t => some ((s.free t).goto c .reapLock)
  | .alloc =>
    some ({ s with
      count := s.count + 1
      hist := s.hist ++ [Traffic.got s.count] }.goto c (.fill s.count))
  | .fill t =>
    some ({ s.touch c [t] with
      finished := Function.update s.finished t false
      recTid := Function.update s.recTid t 0 }.goto c (.tidLock t))
  | .tidLock t => s.lock c (.tidTake t)
  | .tidTake t =>
    some ({ s.touch c [t] with
      gTid := s.gTid + 1
      recTid := Function.update s.recTid t (s.gTid + 1)
      holder := none }.goto c (.ptid t))
  | .ptid t =>
    some ({ s.touch c [t] with
      tid := Function.update s.tid (some t) (s.recTid t) }.goto c (.start t))
  | .start t => some ({ s with entry := Function.update s.entry t .begin }.goto c (.noteTask t))
  | .refused t => some ((s.free t).goto c .idle)
  | .noteTask t => some ((s.touch c [t]).goto c (.linkLock t))
  | .linkLock t => s.lock c (.link t)
  | .link t => some ({ s.touch c [t] with done := t :: s.done, holder := none }.goto c (.ret t))
  | .ret t => some ((s.touch c [t]).goto c .idle)

/-- The next step of the context upon a record. -/
def entryStep (s : Threads) (t : ℕ) : Option Threads :=
  match s.entry t with
  | .absent | .ended => none
  | .begin =>
    some { s.touch (some t) [t] with entry := Function.update s.entry t .running }
  | .running =>
    -- the function returns, or jumps to where the record says
    if s.call (some t) = .idle then
      some { s.touch (some t) [t] with entry := Function.update s.entry t .clearCtid }
    else none
  | .clearCtid =>
    some { s.touch (some t) [t] with entry := Function.update s.entry t .markFinished }
  | .markFinished =>
    some { s.touch (some t) [t] with
      finished := Function.update s.finished t true
      entry := Function.update s.entry t .release }
  | .release => some { s with entry := Function.update s.entry t .ended }

/-- A context runs the program: the first always, another between its start and its end. -/
def Running (s : Threads) : Runner → Prop
  | none => True
  | some t => s.entry t = .running

instance (s : Threads) : (c : Runner) → Decidable (s.Running c)
  | none => isTrue trivial
  | some t => inferInstanceAs (Decidable (s.entry t = .running))

/-- One step. -/
def step (s : Threads) : ThreadLabel → Option Threads
  | .clone c => if s.Running c ∧ s.call c = .idle then some (s.goto c .reapLock) else none
  | .step c => s.cloneStep c
  | .allocFails c => if s.call c = .alloc then some (s.goto c .idle) else none
  | .startFails c =>
    match s.call c with
    | .start t => some ({ s with denied := Function.update s.denied t true }.goto c (.refused t))
    | _ => none
  | .entry t => s.entryStep t
  | .snapshotStart id =>
    if s.count = 0 ∧ s.call none = .idle then
      some { s with tid := Function.update s.tid none (firstTid id) }
    else none

/-- The contexts that were ever started. -/
def runners (s : Threads) : List Runner := none :: (List.range s.count).map some

/-- A record is freed by `reap` only when its creator has returned. -/
def Settled (s : Threads) : ThreadLabel → Prop
  | .step c => ∀ t, s.call c = .reapFree t → ∀ d ∈ s.runners, s.call d ≠ .ret t
  | _ => True

instance (s : Threads) : (l : ThreadLabel) → Decidable (s.Settled l)
  | .step c =>
    match hc : s.call c with
    | .reapFree t => decidable_of_iff (∀ d ∈ s.runners, s.call d ≠ .ret t) (by simp [Settled, hc])
    | .idle | .reapLock | .reapWalk _ | .reapJoin _ | .alloc | .fill _ | .tidLock _ | .tidTake _
    | .ptid _ | .start _ | .refused _ | .noteTask _ | .linkLock _ | .link _ | .ret _ =>
      isTrue (by simp [Settled, hc])
  | .clone _ | .allocFails _ | .startFails _ | .entry _ | .snapshotStart _ => isTrue trivial

end Threads

/-! ## Who has a record -/

/-- How far a record is that a context in `__clone` has. -/
inductive Stage where
  | created | refused | started | joined
  deriving DecidableEq

/-- The record that a context in `__clone` has for itself. -/
def ClonePc.holding : ClonePc → Option (ℕ × Stage)
  | .fill t | .tidLock t | .tidTake t | .ptid t | .start t => some (t, .created)
  | .refused t => some (t, .refused)
  | .noteTask t | .linkLock t | .link t | .reapJoin t => some (t, .started)
  | .reapFree t => some (t, .joined)
  | .idle | .reapLock | .reapWalk _ | .alloc | .ret _ => none

/-- What was done to a record at a stage. -/
def Stage.Of (s : Threads) (t : ℕ) : Stage → Prop
  | .created => s.entry t = .absent ∧ s.joins t = 0 ∧ s.denied t = false
  | .refused => s.entry t = .absent ∧ s.joins t = 0 ∧ s.denied t = true
  | .started => s.entry t ≠ .absent ∧ s.joins t = 0 ∧ s.denied t = false
  | .joined => s.entry t = .ended ∧ s.joins t = 1 ∧ s.denied t = false

namespace Threads

/-- A record is had by the list, or by a context. -/
def Owns (s : Threads) : Option Runner → ℕ → Prop
  | none, t => t ∈ s.done
  | some c, t => ∃ st, (s.call c).holding = some (t, st)

/-- Each record that is allocated is in one place, and what was done to it is what the place says; a
record that was freed was joined once before, or never started. -/
structure Inv (s : Threads) : Prop where
  owned : Owned s.Owns s.hist
  nodup : s.done.Nodup
  born : ∀ t, s.Alive t → t < s.count
  calls : ∀ c t st, (s.call c).holding = some (t, st) → st.Of s t
  list : ∀ t ∈ s.done, Stage.started.Of s t
  gone : ∀ t, t < s.count → ¬ s.Alive t →
    (s.entry t = .absent ∧ s.joins t = 0 ∧ s.denied t = true) ∨
      (s.entry t = .ended ∧ s.joins t = 1 ∧ s.denied t = false)
  unborn : ∀ t, s.count ≤ t → Stage.created.Of s t
  runner : ∀ c, s.call c ≠ .idle → s.Running c
  returning : ∀ c t, s.call c = .ret t → s.entry t ≠ .absent ∧ s.denied t = false

theorem inv_start (id : BitVec 64) : (start id).Inv where
  owned := by
    refine ⟨nofun, fun o t h => ?_, History.always_nil _⟩
    cases o with
    | none => cases h
    | some c =>
      obtain ⟨st, hst⟩ := h
      cases hst
  nodup := List.nodup_nil
  born := nofun
  calls := nofun
  list := nofun
  gone := fun t h => absurd h (Nat.not_lt_zero t)
  unborn := fun _ _ => ⟨rfl, rfl, rfl⟩
  runner := fun _ h => absurd rfl h
  returning := nofun

section Frame

variable {s u : Threads}

/-- The invariant speaks of the list, the contexts and what was done to the records. -/
theorem Inv.frame (h : s.Inv) (hcount : u.count = s.count) (hdone : u.done = s.done)
    (hentry : u.entry = s.entry) (hcall : u.call = s.call) (hjoins : u.joins = s.joins)
    (hdenied : u.denied = s.denied) (hhist : u.hist = s.hist) : u.Inv := by
  obtain ⟨count, holder, done, gTid, recTid, tid, finished, entry, call, joins, denied, hist,
    stale⟩ := s
  obtain ⟨count', holder', done', gTid', recTid', tid', finished', entry', call', joins', denied',
    hist', stale'⟩ := u
  simp only at hcount hdone hentry hcall hjoins hdenied hhist
  subst hcount hdone hentry hcall hjoins hdenied hhist
  exact ⟨h.owned, h.nodup, h.born, h.calls, h.list, h.gone, h.unborn, h.runner, h.returning⟩

theorem Stage.of_congr (st : Stage) {t : ℕ} (hentry : u.entry t = s.entry t)
    (hjoins : u.joins t = s.joins t) (hdenied : u.denied t = s.denied t) :
    st.Of u t ↔ st.Of s t := by
  cases st <;> simp only [Stage.Of, hentry, hjoins, hdenied]

end Frame

/-! ## What a step can do -/

section Moves

variable {s u : Threads} {c : Runner} {pc : ClonePc}

theorem goto_call_self : (s.goto c pc).call c = pc := Function.update_self ..

theorem goto_call_of_ne {d : Runner} (h : d ≠ c) : (s.goto c pc).call d = s.call d :=
  Function.update_of_ne h ..

/-- Who has what after one context moved. -/
theorem owns_goto (o : Option Runner) (x : ℕ) :
    (s.goto c pc).Owns o x ↔
      (o ≠ some c ∧ s.Owns o x) ∨ (o = some c ∧ ∃ st, pc.holding = some (x, st)) := by
  cases o with
  | none => simp [Owns, goto]
  | some d =>
    by_cases hd : d = c
    · subst hd
      simp [Owns, goto_call_self]
    · simp [Owns, goto_call_of_ne hd, hd]

theorem owns_of_holding {t : ℕ} {st : Stage} (h : (s.call c).holding = some (t, st)) :
    s.Owns (some c) t := ⟨st, h⟩

/-- A context has one record at most. -/
theorem eq_of_owns {t x : ℕ} {st : Stage} (h : (s.call c).holding = some (t, st))
    (hx : s.Owns (some c) x) : x = t := by
  obtain ⟨st', hst'⟩ := hx
  rw [h] at hst'
  cases hst'
  rfl

theorem not_owns {x : ℕ} (h : (s.call c).holding = none) : ¬ s.Owns (some c) x := by
  rintro ⟨st, hst⟩
  rw [h] at hst
  cases hst

theorem ne_idle_of_holding {t : ℕ} {st : Stage} (h : (s.call c).holding = some (t, st)) :
    s.call c ≠ .idle := by
  intro hc
  rw [hc] at h
  cases h

/-- A record that a context has or that is in the list is allocated. -/
theorem Inv.alive (h : s.Inv) {t : ℕ} {st : Stage} (hc : (s.call c).holding = some (t, st)) :
    s.Alive t := h.owned.held _ _ (owns_of_holding hc)

/-- What holds of the contexts after one of them moved. -/
theorem calls_goto {P : Runner → ClonePc → Prop} (h : ∀ d, P d (s.call d)) (hc : P c pc)
    (d : Runner) :
    P d ((s.goto c pc).call d) := by
  by_cases hd : d = c
  · subst hd
    rw [goto_call_self]
    exact hc
  · rw [goto_call_of_ne hd]
    exact h d

/-- **A context moves** and has what it had. -/
theorem Inv.move (h : s.Inv) (hsame : pc.holding = (s.call c).holding) (hret : ∀ t, pc ≠ .ret t)
    (hrun : pc ≠ .idle → s.Running c) : (s.goto c pc).Inv where
  owned := by
    refine h.owned.congr fun o x => ?_
    rw [owns_goto, hsame]
    by_cases ho : o = some c
    · subst ho
      simp [Owns]
    · simp [ho]
  nodup := h.nodup
  born := h.born
  calls := calls_goto (P := fun _ p => ∀ t st, p.holding = some (t, st) → st.Of s t) h.calls
    (by rw [hsame]; exact h.calls c)
  list := h.list
  gone := h.gone
  unborn := h.unborn
  runner := calls_goto (P := fun d p => p ≠ .idle → s.Running d) h.runner hrun
  returning := calls_goto
    (P := fun _ p => ∀ t, p = .ret t → s.entry t ≠ .absent ∧ s.denied t = false)
    h.returning (fun t ht => absurd ht (hret t))

/-- The state with what was done to one record. -/
def stamp (s : Threads) (t : ℕ) (e : EntryPc) (j : ℕ) (b : Bool) : Threads :=
  { s with
    entry := Function.update s.entry t e
    joins := Function.update s.joins t j
    denied := Function.update s.denied t b }

theorem stage_stamp {t x : ℕ} {e : EntryPc} {j : ℕ} {b : Bool} (hx : x ≠ t) (st : Stage) :
    st.Of (s.stamp t e j b) x ↔ st.Of s x := by
  apply Stage.of_congr <;> exact Function.update_of_ne hx ..

/-- **A record comes to another stage** in the hands of the context that has it. -/
theorem Inv.restage (h : s.Inv) {t : ℕ} {st st' : Stage} (hc : (s.call c).holding = some (t, st))
    (hpc : pc.holding = some (t, st')) {e : EntryPc} {j : ℕ} {b : Bool}
    (hof : st'.Of (s.stamp t e j b) t) (hcreator : s.entry t = .running → e = .running)
    (hnew : s.entry t = .absent ∨ e ≠ .absent ∧ b = false) :
    ((s.stamp t e j b).goto c pc).Inv := by
  have halive : s.Alive t := h.alive hc
  have hone : ∀ {o}, s.Owns o t → o = some c := fun ho => h.owned.unique ho (owns_of_holding hc)
  have hbusy : s.call c ≠ .idle := ne_idle_of_holding hc
  have hrun : ∀ d, s.call d ≠ .idle → (s.stamp t e j b).Running d := by
    intro d hd
    have hd' := h.runner d hd
    cases d with
    | none => trivial
    | some x =>
      show Function.update s.entry t e x = .running
      by_cases hx : x = t
      · subst hx
        rw [Function.update_self]
        exact hcreator hd'
      · rw [Function.update_of_ne hx]
        exact hd'
  refine ⟨?_, h.nodup, h.born, ?_, fun x hx => ?_, fun x hx hdead => ?_, fun x hx => ?_, ?_, ?_⟩
  · refine h.owned.congr fun o x => ?_
    rw [owns_goto]
    show (o ≠ some c ∧ s.Owns o x) ∨ _ ↔ _
    constructor
    · rintro (⟨-, ho⟩ | ⟨rfl, st'', hst''⟩)
      · exact ho
      · rw [hpc] at hst''
        cases hst''
        exact owns_of_holding hc
    · intro ho
      by_cases hoc : o = some c
      · subst hoc
        obtain rfl := eq_of_owns hc ho
        exact Or.inr ⟨rfl, st', hpc⟩
      · exact Or.inl ⟨hoc, ho⟩
  · intro d x st'' hd
    by_cases hdc : d = c
    · subst hdc
      rw [goto_call_self, hpc] at hd
      cases hd
      exact hof
    · rw [goto_call_of_ne hdc] at hd
      have hxt : x ≠ t := by
        rintro rfl
        exact hdc (Option.some.inj (hone ⟨st'', hd⟩))
      exact (stage_stamp hxt st'').mpr (h.calls d x st'' hd)
  · have hxt : x ≠ t := by
      rintro rfl
      cases hone (o := none) hx
    exact (stage_stamp hxt .started).mpr (h.list x hx)
  · have hxt : x ≠ t := by
      rintro rfl
      exact hdead halive
    show (Function.update s.entry t e x = _ ∧ Function.update s.joins t j x = _ ∧
      Function.update s.denied t b x = _) ∨ (Function.update s.entry t e x = _ ∧
      Function.update s.joins t j x = _ ∧ Function.update s.denied t b x = _)
    rw [Function.update_of_ne hxt, Function.update_of_ne hxt, Function.update_of_ne hxt]
    exact h.gone x hx hdead
  · have hxt : x ≠ t := by
      rintro rfl
      exact absurd (h.born x halive) (Nat.not_lt.mpr hx)
    exact (stage_stamp hxt .created).mpr (h.unborn x hx)
  · exact calls_goto (P := fun d p => p ≠ .idle → (s.stamp t e j b).Running d) hrun
      (fun _ => hrun c hbusy)
  · refine calls_goto (P := fun _ p => ∀ x, p = .ret x → Function.update s.entry t e x ≠ .absent ∧
      Function.update s.denied t b x = false) (fun d x hd => ?_) (fun x hx => ?_)
    · obtain ⟨hpresent, hden⟩ := h.returning d x hd
      by_cases hxt : x = t
      · subst hxt
        rw [Function.update_self, Function.update_self]
        exact hnew.resolve_left hpresent
      · rw [Function.update_of_ne hxt, Function.update_of_ne hxt]
        exact ⟨hpresent, hden⟩
    · rw [hx] at hpc
      cases hpc

/-- **A record is allocated.** -/
theorem Inv.alloc (h : s.Inv) (hc : (s.call c).holding = none) (hrun : s.Running c) :
    ({ s with count := s.count + 1, hist := s.hist ++ [Traffic.got s.count] }.goto c
      (.fill s.count)).Inv := by
  have hfresh : ¬ s.Alive s.count := fun ha => lt_irrefl _ (h.born _ ha)
  have halive : ∀ x, x ∈ Traffic.holding (s.hist ++ [.got s.count]) ↔ x = s.count ∨ s.Alive x := by
    intro x
    rw [Traffic.holding_got, Finset.mem_insert]
    rfl
  refine ⟨?_, h.nodup, fun x hx => ?_, ?_, h.list, fun x hx hdead => ?_, fun x hx => ?_, ?_, ?_⟩
  · refine h.owned.grant (o := some c) hfresh fun o x => ?_
    rw [owns_goto]
    show (o ≠ some c ∧ s.Owns o x) ∨ _ ↔ _
    by_cases ho : o = some c
    · subst ho
      simp [ClonePc.holding, not_owns hc, eq_comm]
    · simp [ho]
  · show x < s.count + 1
    rcases (halive x).mp hx with rfl | hx
    · exact Nat.lt_succ_self _
    · exact Nat.lt_succ_of_lt (h.born x hx)
  · refine calls_goto (P := fun _ p => ∀ t st, p.holding = some (t, st) → st.Of s t) h.calls ?_
    rintro t st ⟨⟩
    exact h.unborn s.count le_rfl
  · have hne : x ≠ s.count := fun hxc => hdead ((halive x).mpr (Or.inl hxc))
    refine h.gone x ?_ fun ha => hdead ((halive x).mpr (Or.inr ha))
    exact lt_of_le_of_ne (Nat.lt_succ_iff.mp hx) hne
  · exact h.unborn x (Nat.le_of_succ_le hx)
  · exact calls_goto (P := fun d p => p ≠ .idle → s.Running d) h.runner (fun _ => hrun)
  · exact calls_goto
      (P := fun _ p => ∀ t, p = .ret t → s.entry t ≠ .absent ∧ s.denied t = false) h.returning nofun

/-- **A record is freed** by the context that has it, after its join or when its start
was refused. -/
theorem Inv.free (h : s.Inv) {t : ℕ} {st : Stage} (hc : (s.call c).holding = some (t, st))
    (hst : st = .refused ∨ st = .joined) (hpc : pc.holding = none) (hret : ∀ t, pc ≠ .ret t) :
    ((s.free t).goto c pc).Inv := by
  have hof := h.calls c t st hc
  have hone : ∀ {o}, s.Owns o t → o = some c := fun ho => h.owned.unique ho (owns_of_holding hc)
  have halive : ∀ x, x ∈ Traffic.holding (s.hist ++ [.gave t]) ↔ x ≠ t ∧ s.Alive x := by
    intro x
    rw [Traffic.holding_gave, Finset.mem_erase]
    rfl
  have hgone : (s.entry t = .absent ∧ s.joins t = 0 ∧ s.denied t = true) ∨
      (s.entry t = .ended ∧ s.joins t = 1 ∧ s.denied t = false) := by
    rcases hst with rfl | rfl
    · exact Or.inl hof
    · exact Or.inr hof
  refine ⟨?_, h.nodup, fun x hx => h.born x ((halive x).mp hx).2, ?_, h.list, fun x hx hdead => ?_,
    h.unborn, ?_, ?_⟩
  · refine (h.owned.revoke (h.alive hc)).congr fun o x => ?_
    rw [owns_goto]
    show (o ≠ some c ∧ s.Owns o x) ∨ _ ↔ _
    constructor
    · rintro (⟨hoc, ho⟩ | ⟨-, st', hst'⟩)
      · refine ⟨ho, ?_⟩
        rintro rfl
        exact hoc (hone ho)
      · rw [hpc] at hst'
        cases hst'
    · rintro ⟨ho, hxt⟩
      refine Or.inl ⟨?_, ho⟩
      rintro rfl
      exact hxt (eq_of_owns hc ho)
  · refine calls_goto (P := fun _ p => ∀ x st, p.holding = some (x, st) → st.Of s x) h.calls ?_
    intro x st' hx
    rw [hpc] at hx
    cases hx
  · by_cases hxt : x = t
    · subst hxt
      exact hgone
    · exact h.gone x hx fun ha => hdead ((halive x).mpr ⟨hxt, ha⟩)
  · exact calls_goto (P := fun d p => p ≠ .idle → s.Running d) h.runner
      (fun _ => h.runner c (ne_idle_of_holding hc))
  · exact calls_goto
      (P := fun _ p => ∀ t, p = .ret t → s.entry t ≠ .absent ∧ s.denied t = false) h.returning
      (fun x hx => absurd hx (hret x))

/-- **A record is linked** into the list. -/
theorem Inv.link (h : s.Inv) {t : ℕ} (hc : s.call c = .link t) :
    ({ s with done := t :: s.done }.goto c (.ret t)).Inv := by
  have hhold : (s.call c).holding = some (t, .started) := by rw [hc]; rfl
  have hone : ∀ {o}, s.Owns o t → o = some c := fun ho => h.owned.unique ho (owns_of_holding hhold)
  have hof : Stage.started.Of s t := h.calls c t .started hhold
  have hnot : t ∉ s.done := by
    intro ht
    cases hone (o := none) ht
  refine ⟨?_, List.nodup_cons.mpr ⟨hnot, h.nodup⟩, h.born, ?_, fun x hx => ?_, h.gone, h.unborn,
    ?_, ?_⟩
  · refine h.owned.move (o := none) (h.alive hhold) fun o x => ?_
    rw [owns_goto]
    cases o with
    | none =>
      simp only [Owns, List.mem_cons, ne_eq, reduceCtorEq, not_false_eq_true, true_and, false_and,
        or_false]
      constructor
      · rintro (rfl | hx)
        · exact Or.inr rfl
        · refine Or.inl ⟨hx, ?_⟩
          rintro rfl
          exact hnot hx
      · rintro (⟨hx, -⟩ | rfl)
        · exact Or.inr hx
        · exact Or.inl rfl
    | some d =>
      show (some d ≠ some c ∧ s.Owns (some d) x) ∨ _ ↔ _
      simp only [ClonePc.holding, reduceCtorEq, exists_false, and_false, or_false, false_and]
      constructor
      · rintro ⟨hdc, hx⟩
        refine ⟨hx, ?_⟩
        rintro rfl
        exact hdc (hone hx)
      · rintro ⟨hx, hxt⟩
        refine ⟨?_, hx⟩
        rintro ⟨⟩
        exact hxt (eq_of_owns hhold hx)
  · refine calls_goto (P := fun _ p => ∀ x st, p.holding = some (x, st) → st.Of s x) h.calls ?_
    nofun
  · rcases List.mem_cons.mp hx with rfl | hx
    · exact hof
    · exact h.list x hx
  · exact calls_goto (P := fun d p => p ≠ .idle → s.Running d) h.runner
      (fun _ => h.runner c (ne_idle_of_holding hhold))
  · refine calls_goto
      (P := fun _ p => ∀ t, p = .ret t → s.entry t ≠ .absent ∧ s.denied t = false) h.returning ?_
    rintro x ⟨⟩
    exact ⟨hof.1, hof.2.2⟩

/-- **A record is unlinked** by a `reap`. -/
theorem Inv.unlink (h : s.Inv) {t i : ℕ} (hc : (s.call c).holding = none) (hrun : s.Running c)
    (ht : s.done[i]? = some t) :
    ({ s with done := s.done.eraseIdx i }.goto c (.reapJoin t)).Inv := by
  have hmem : t ∈ s.done := List.mem_of_getElem? ht
  obtain ⟨hi, hti⟩ := List.getElem?_eq_some_iff.mp ht
  have hrest : ∀ x, x ∈ s.done.eraseIdx i ↔ x ∈ s.done ∧ x ≠ t := by
    intro x
    rw [← hti, ← h.nodup.erase_getElem i hi, h.nodup.mem_erase_iff, and_comm]
  have hone : ∀ {o}, s.Owns o t → o = none := fun ho =>
    h.owned.unique ho (show s.Owns none t from hmem)
  refine ⟨?_, h.nodup.eraseIdx i, h.born, ?_, fun x hx => h.list x ((hrest x).mp hx).1, h.gone,
    h.unborn, ?_, ?_⟩
  · refine h.owned.move (o := some c) (h.owned.held none t hmem) fun o x => ?_
    rw [owns_goto]
    cases o with
    | none =>
      simp only [Owns, ne_eq, reduceCtorEq, not_false_eq_true, true_and, false_and, or_false]
      exact hrest x
    | some d =>
      show (some d ≠ some c ∧ s.Owns (some d) x) ∨ _ ↔ _
      by_cases hdc : d = c
      · subst hdc
        simp [ClonePc.holding, not_owns hc, eq_comm]
      · simp only [ne_eq, Option.some.injEq, hdc, not_false_eq_true, true_and, false_and, or_false]
        refine ⟨fun hx => ⟨hx, ?_⟩, And.left⟩
        rintro rfl
        cases hone hx
  · refine calls_goto (P := fun _ p => ∀ x st, p.holding = some (x, st) → st.Of s x) h.calls ?_
    rintro x st ⟨⟩
    exact h.list t hmem
  · exact calls_goto (P := fun d p => p ≠ .idle → s.Running d) h.runner (fun _ => hrun)
  · exact calls_goto
      (P := fun _ p => ∀ t, p = .ret t → s.entry t ≠ .absent ∧ s.denied t = false) h.returning nofun

/-- **The context upon a record** goes on. -/
theorem Inv.progress (h : s.Inv) {t : ℕ} {e : EntryPc} (hpresent : s.entry t ≠ .absent)
    (hended : s.entry t ≠ .ended) (he : e ≠ .absent)
    (hidle : s.entry t = .running → s.call (some t) = .idle) :
    Inv { s with entry := Function.update s.entry t e } := by
  have hof : ∀ {x} st, Stage.Of s x st →
      Stage.Of { s with entry := Function.update s.entry t e } x st := by
    intro x st hst
    by_cases hx : x = t
    · subst hx
      cases st with
      | created => exact absurd hst.1 hpresent
      | refused => exact absurd hst.1 hpresent
      | joined => exact absurd hst.1 hended
      | started => exact ⟨by simpa using he, hst.2⟩
    · have hsame : Function.update s.entry t e x = s.entry x := Function.update_of_ne hx ..
      have hiff := Stage.of_congr (s := s) (u := { s with entry := Function.update s.entry t e }) st
        hsame rfl rfl
      exact hiff.mpr hst
  refine ⟨h.owned, h.nodup, h.born, fun d x st hd => hof st (h.calls d x st hd),
    fun x hx => hof .started (h.list x hx), fun x hx hdead => ?_,
    fun x hx => hof .created (h.unborn x hx), fun d hd => ?_, fun d x hd => ?_⟩
  · have hxt : x ≠ t := by
      rintro rfl
      rcases h.gone x hx hdead with hg | hg
      · exact hpresent hg.1
      · exact hended hg.1
    show (Function.update s.entry t e x = _ ∧ _) ∨ (Function.update s.entry t e x = _ ∧ _)
    rw [Function.update_of_ne hxt]
    exact h.gone x hx hdead
  · have hrun := h.runner d hd
    cases d with
    | none => trivial
    | some x =>
      show Function.update s.entry t e x = .running
      have hxt : x ≠ t := by
        rintro rfl
        exact hd (hidle hrun)
      rw [Function.update_of_ne hxt]
      exact hrun
  · obtain ⟨hx, hden⟩ := h.returning d x hd
    refine ⟨?_, hden⟩
    show Function.update s.entry t e x ≠ .absent
    by_cases hxt : x = t
    · subst hxt
      rw [Function.update_self]
      exact he
    · rw [Function.update_of_ne hxt]
      exact hx

/-- A record whose context runs is allocated. -/
theorem Inv.alive_of_entry (h : s.Inv) {t : ℕ} (hpresent : s.entry t ≠ .absent)
    (hended : s.entry t ≠ .ended) : s.Alive t := by
  by_contra hdead
  rcases Nat.lt_or_ge t s.count with ht | ht
  · rcases h.gone t ht hdead with hg | hg
    · exact hpresent hg.1
    · exact hended hg.1
  · exact hpresent (h.unborn t ht).1

end Moves

/-! ## Steps -/

section Steps

variable {s u : Threads} {c : Runner}

/-- A context that holds the lock, or waits for it, moves. -/
theorem Inv.lock (h : s.Inv) {pc : ClonePc} (hu : s.lock c pc = some u)
    (hsame : pc.holding = (s.call c).holding) (hret : ∀ t, pc ≠ .ret t) (hbusy : s.call c ≠ .idle) :
    u.Inv := by
  simp only [Threads.lock, Option.ite_none_right_eq_some, Option.some.injEq] at hu
  obtain ⟨-, rfl⟩ := hu
  exact (h.move hsame hret fun _ => h.runner c hbusy).frame rfl rfl rfl rfl rfl rfl rfl

theorem Inv.walk (h : s.Inv) {i : ℕ} (hc : s.call c = .reapWalk i) : (s.walk c i).Inv := by
  have hnone : (s.call c).holding = none := by rw [hc]; rfl
  have hrun : s.Running c := h.runner c (by rw [hc]; nofun)
  unfold Threads.walk
  cases ht : s.done[i]? with
  | none =>
    have hmove : (s.goto c .alloc).Inv := h.move hnone.symm nofun fun _ => hrun
    exact hmove.frame rfl rfl rfl rfl rfl rfl rfl
  | some t =>
    simp only
    split_ifs
    · exact (h.unlink hnone hrun ht).frame rfl rfl rfl rfl rfl rfl rfl
    · have hmove : (s.goto c (.reapWalk (i + 1))).Inv := h.move hnone.symm nofun fun _ => hrun
      exact hmove.frame rfl rfl rfl rfl rfl rfl rfl

theorem Inv.cloneStep (h : s.Inv) (hu : s.cloneStep c = some u) : u.Inv := by
  have hbusy : s.call c ≠ .idle := by
    intro hc
    simp only [Threads.cloneStep, hc] at hu
    cases hu
  have hrun : s.Running c := h.runner c hbusy
  -- a step that only moves the context, whatever it reads or numbers
  have hmove : ∀ pc, pc.holding = (s.call c).holding → (∀ t, pc ≠ .ret t) → (s.goto c pc).Inv :=
    fun _ hsame hret => h.move hsame hret fun _ => hrun
  unfold Threads.cloneStep at hu
  cases hc : s.call c with
  | idle => exact absurd hc hbusy
  | reapLock =>
    rw [hc] at hu
    exact h.lock hu (by rw [hc]; rfl) nofun hbusy
  | reapWalk i =>
    rw [hc] at hu
    cases hu
    exact h.walk hc
  | reapJoin t =>
    rw [hc] at hu
    simp only [Option.ite_none_right_eq_some, Option.some.injEq] at hu
    obtain ⟨hended, rfl⟩ := hu
    have hhold : (s.call c).holding = some (t, .started) := by rw [hc]; rfl
    obtain ⟨-, hjoins, hdenied⟩ := h.calls c t .started hhold
    have hstep : ((s.stamp t .ended (s.joins t + 1) false).goto c (.reapFree t)).Inv := by
      refine h.restage hhold rfl ?_ ?_ (Or.inr ⟨nofun, rfl⟩)
      · simp [Stage.Of, stamp, hjoins]
      · rw [hended]
        intro hrun
        cases hrun
    refine hstep.frame rfl rfl ?_ rfl rfl ?_ rfl
    · exact (Function.update_eq_self_iff.mpr hended.symm).symm
    · exact (Function.update_eq_self_iff.mpr hdenied.symm).symm
  | reapFree t =>
    rw [hc] at hu
    cases hu
    have hhold : (s.call c).holding = some (t, .joined) := by rw [hc]; rfl
    exact h.free hhold (Or.inr rfl) rfl nofun
  | alloc =>
    rw [hc] at hu
    cases hu
    exact h.alloc (by rw [hc]; rfl) hrun
  | fill t =>
    rw [hc] at hu
    cases hu
    exact (hmove (.tidLock t) (by rw [hc]; rfl) nofun).frame rfl rfl rfl rfl rfl rfl rfl
  | tidLock t =>
    rw [hc] at hu
    exact h.lock hu (by rw [hc]; rfl) nofun hbusy
  | tidTake t =>
    rw [hc] at hu
    cases hu
    exact (hmove (.ptid t) (by rw [hc]; rfl) nofun).frame rfl rfl rfl rfl rfl rfl rfl
  | ptid t =>
    rw [hc] at hu
    cases hu
    exact (hmove (.start t) (by rw [hc]; rfl) nofun).frame rfl rfl rfl rfl rfl rfl rfl
  | start t =>
    rw [hc] at hu
    cases hu
    have hhold : (s.call c).holding = some (t, .created) := by rw [hc]; rfl
    obtain ⟨habsent, hjoins, hdenied⟩ := h.calls c t .created hhold
    have hstep : ((s.stamp t .begin (s.joins t) false).goto c (.noteTask t)).Inv := by
      refine h.restage hhold rfl ?_ ?_ (Or.inl habsent)
      · simp [Stage.Of, stamp, hjoins]
      · rw [habsent]
        intro hrun
        cases hrun
    refine hstep.frame rfl rfl rfl rfl ?_ ?_ rfl
    · exact (Function.update_eq_self t s.joins).symm
    · exact (Function.update_eq_self_iff.mpr hdenied.symm).symm
  | refused t =>
    rw [hc] at hu
    cases hu
    have hhold : (s.call c).holding = some (t, .refused) := by rw [hc]; rfl
    exact h.free hhold (Or.inl rfl) rfl nofun
  | noteTask t =>
    rw [hc] at hu
    cases hu
    exact (hmove (.linkLock t) (by rw [hc]; rfl) nofun).frame rfl rfl rfl rfl rfl rfl rfl
  | linkLock t =>
    rw [hc] at hu
    exact h.lock hu (by rw [hc]; rfl) nofun hbusy
  | link t =>
    rw [hc] at hu
    cases hu
    exact (h.link hc).frame rfl rfl rfl rfl rfl rfl rfl
  | ret t =>
    rw [hc] at hu
    cases hu
    exact (hmove .idle (by rw [hc]; rfl) nofun).frame rfl rfl rfl rfl rfl rfl rfl

/-- What a step of `entry` is: the context was started and has not ended, goes on to another place,
and uses no record but its own. -/
theorem entryStep_cases {t : ℕ} (hu : s.entryStep t = some u) :
    (s.entry t ≠ .absent ∧ s.entry t ≠ .ended ∧
        (s.entry t = .running → s.call (some t) = .idle)) ∧
      ∃ e finished v, e ≠ .absent ∧ (v = s ∨ v = s.touch (some t) [t]) ∧
        u = { v with entry := Function.update s.entry t e, finished := finished } := by
  unfold entryStep at hu
  cases he : s.entry t with
  | absent => simp [he] at hu
  | ended => simp [he] at hu
  | begin =>
    simp only [he, Option.some.injEq] at hu
    exact ⟨⟨nofun, nofun, nofun⟩, .running, s.finished, _, nofun, Or.inr rfl, hu.symm⟩
  | running =>
    simp only [he, Option.ite_none_right_eq_some, Option.some.injEq] at hu
    exact ⟨⟨nofun, nofun, fun _ => hu.1⟩, .clearCtid, s.finished, _, nofun, Or.inr rfl, hu.2.symm⟩
  | clearCtid =>
    simp only [he, Option.some.injEq] at hu
    exact ⟨⟨nofun, nofun, nofun⟩, .markFinished, s.finished, _, nofun, Or.inr rfl, hu.symm⟩
  | markFinished =>
    simp only [he, Option.some.injEq] at hu
    exact ⟨⟨nofun, nofun, nofun⟩, .release, _, _, nofun, Or.inr rfl, hu.symm⟩
  | release =>
    -- the record may be freed by now, and is not used
    simp only [he, Option.some.injEq] at hu
    exact ⟨⟨nofun, nofun, nofun⟩, .ended, s.finished, s, nofun, Or.inl rfl, hu.symm⟩

theorem Inv.entryStep (h : s.Inv) {t : ℕ} (hu : s.entryStep t = some u) : u.Inv := by
  obtain ⟨⟨hpresent, hended, hidle⟩, e, finished, v, he, hv, rfl⟩ := entryStep_cases hu
  have hgo := h.progress hpresent hended he hidle
  rcases hv with rfl | rfl
  · exact hgo.frame rfl rfl rfl rfl rfl rfl rfl
  · exact hgo.frame rfl rfl rfl rfl rfl rfl rfl

/-- **One step keeps the invariant.** -/
theorem Inv.step (h : s.Inv) {l : ThreadLabel} (hu : s.step l = some u) : u.Inv := by
  cases l with
  | clone c =>
    simp only [Threads.step, Option.ite_none_right_eq_some, Option.some.injEq] at hu
    obtain ⟨⟨hrun, hc⟩, rfl⟩ := hu
    exact h.move (by rw [hc]; rfl) nofun fun _ => hrun
  | step c => exact h.cloneStep hu
  | allocFails c =>
    simp only [Threads.step, Option.ite_none_right_eq_some, Option.some.injEq] at hu
    obtain ⟨hc, rfl⟩ := hu
    exact h.move (by rw [hc]; rfl) nofun fun hidle => absurd rfl hidle
  | startFails c =>
    simp only [Threads.step] at hu
    split at hu
    · rename_i t hc
      cases hu
      have hhold : (s.call c).holding = some (t, .created) := by rw [hc]; rfl
      obtain ⟨habsent, hjoins, -⟩ := h.calls c t .created hhold
      have hstep : ((s.stamp t .absent (s.joins t) true).goto c (.refused t)).Inv := by
        refine h.restage hhold rfl ?_ ?_ (Or.inl habsent)
        · simp [Stage.Of, stamp, hjoins]
        · rw [habsent]
          intro hrun
          cases hrun
      refine hstep.frame rfl rfl ?_ rfl ?_ rfl rfl
      · exact (Function.update_eq_self_iff.mpr habsent.symm).symm
      · exact (Function.update_eq_self t s.joins).symm
    · cases hu
  | entry t => exact h.entryStep hu
  | snapshotStart id =>
    simp only [Threads.step, Option.ite_none_right_eq_some, Option.some.injEq] at hu
    obtain ⟨-, rfl⟩ := hu
    exact h.frame rfl rfl rfl rfl rfl rfl rfl

theorem inv_of_reachable {id : BitVec 64} (h : Reachable step (start id) s) : s.Inv :=
  h.invariant (inv_start id) fun _ _ _ hu hv => hu.step hv

/-! ## The uses of a record -/

/-- No context has used a record that was freed, and none is about to. -/
structure Sound (s : Threads) : Prop where
  unused : s.stale = []
  pending : ∀ c t, s.call c = .ret t → s.Alive t

/-- Using records that are allocated leaves no trace. -/
theorem touch_of_alive {ts : List ℕ} (h : ∀ t ∈ ts, s.Alive t) : s.touch c ts = s := by
  have hnone : (ts.filter fun t => ¬ s.Alive t) = [] := by
    rw [List.filter_eq_nil_iff]
    intro t ht
    simpa using h t ht
  simp only [touch, hnone, List.map_nil, List.append_nil]

/-- What a `reap` uses at a link is in the list. -/
theorem mem_done_of_linkAt {i t : ℕ} (h : t ∈ s.linkAt i) : t ∈ s.done := by
  unfold linkAt at h
  split_ifs at h
  · cases h
  · exact List.mem_of_getElem? (Option.mem_toList.mp h)

/-- A step that moves a context to a place where it uses no record of another. -/
theorem Sound.goto (h : s.Sound) (c : Runner) (pc : ClonePc) (hret : ∀ t, pc ≠ .ret t) :
    (s.goto c pc).Sound where
  unused := h.unused
  pending := calls_goto (P := fun _ p => ∀ t, p = .ret t → s.Alive t) h.pending
    fun t ht => absurd ht (hret t)

theorem Sound.frame (h : s.Sound) (hcall : u.call = s.call) (hhist : u.hist = s.hist)
    (hstale : u.stale = s.stale) : u.Sound where
  unused := hstale.trans h.unused
  pending := by
    intro c t hc
    rw [hcall] at hc
    have halive := h.pending c t hc
    unfold Alive at halive ⊢
    rwa [hhist]

/-- Freeing a record that no creator is about to read. -/
theorem Sound.free (h : s.Sound) {t : ℕ} (hno : ∀ d, s.call d ≠ .ret t) : (s.free t).Sound where
  unused := h.unused
  pending := by
    intro d x hd
    have hxt : x ≠ t := by
      rintro rfl
      exact hno d hd
    show x ∈ Traffic.holding (s.hist ++ [.gave t])
    rw [Traffic.holding_gave, Finset.mem_erase]
    exact ⟨hxt, h.pending d x hd⟩

theorem Sound.walk (h : s.Sound) (hi : s.Inv) {i : ℕ} : (s.walk c i).Sound := by
  have hdone : ∀ t ∈ s.done, s.Alive t := fun t ht => hi.owned.held none t ht
  have hlink : ∀ t ∈ s.linkAt i, s.Alive t := fun t ht => hdone t (mem_done_of_linkAt ht)
  unfold Threads.walk
  cases ht : s.done[i]? with
  | none =>
    simp only [touch_of_alive hlink]
    exact (h.goto c .alloc nofun).frame rfl rfl rfl
  | some t =>
    have hboth : ∀ x ∈ t :: s.linkAt i, s.Alive x := by
      intro x hx
      rcases List.mem_cons.mp hx with rfl | hx
      · exact hdone x (List.mem_of_getElem? ht)
      · exact hlink x hx
    simp only [touch_of_alive hboth]
    split_ifs
    · exact (h.goto c (.reapJoin t) nofun).frame rfl rfl rfl
    · exact h.goto c (.reapWalk (i + 1)) nofun

theorem Sound.lock (h : s.Sound) {pc : ClonePc} (hu : s.lock c pc = some u)
    (hret : ∀ t, pc ≠ .ret t) : u.Sound := by
  simp only [Threads.lock, Option.ite_none_right_eq_some, Option.some.injEq] at hu
  obtain ⟨-, rfl⟩ := hu
  exact (h.goto c pc hret).frame rfl rfl rfl

/-- A context in `__clone` was started. -/
theorem Inv.mem_runners (h : s.Inv) {d : Runner} (hd : s.call d ≠ .idle) : d ∈ s.runners := by
  have hrun := h.runner d hd
  cases d with
  | none => exact List.mem_cons_self ..
  | some x =>
    refine List.mem_cons_of_mem _ (List.mem_map.mpr ⟨x, List.mem_range.mpr ?_, rfl⟩)
    by_contra hx
    have habsent := (h.unborn x (Nat.not_lt.mp hx)).1
    rw [show s.entry x = .running from hrun] at habsent
    cases habsent

theorem Sound.cloneStep (h : s.Sound) (hi : s.Inv) (hset : s.Settled (.step c))
    (hu : s.cloneStep c = some u) : u.Sound := by
  -- a record that the context has is allocated
  have hown : ∀ {t} st, (s.call c).holding = some (t, st) → s.touch c [t] = s := by
    intro t st hc
    refine touch_of_alive fun x hx => ?_
    rw [List.mem_singleton.mp hx]
    exact hi.alive hc
  unfold Threads.cloneStep at hu
  cases hc : s.call c with
  | idle =>
    rw [hc] at hu
    cases hu
  | reapLock =>
    rw [hc] at hu
    exact h.lock hu nofun
  | reapWalk i =>
    rw [hc] at hu
    cases hu
    exact h.walk hi
  | reapJoin t =>
    rw [hc] at hu
    simp only [hown (t := t) .started (by rw [hc]; rfl), Option.ite_none_right_eq_some,
      Option.some.injEq] at hu
    obtain ⟨-, rfl⟩ := hu
    exact (h.goto c (.reapFree t) nofun).frame rfl rfl rfl
  | reapFree t =>
    rw [hc] at hu
    cases hu
    refine (h.free fun d hd => ?_).goto c .reapLock nofun
    exact hset t hc d (hi.mem_runners (by rw [hd]; nofun)) hd
  | alloc =>
    rw [hc] at hu
    cases hu
    have hgo := h.goto c (.fill s.count) nofun
    refine ⟨hgo.unused, fun d x hd => ?_⟩
    show x ∈ Traffic.holding (s.hist ++ [.got s.count])
    rw [Traffic.holding_got]
    exact Finset.mem_insert_of_mem (hgo.pending d x hd)
  | fill t =>
    rw [hc] at hu
    simp only [hown (t := t) .created (by rw [hc]; rfl), Option.some.injEq] at hu
    rw [← hu]
    exact (h.goto c (.tidLock t) nofun).frame rfl rfl rfl
  | tidLock t =>
    rw [hc] at hu
    exact h.lock hu nofun
  | tidTake t =>
    rw [hc] at hu
    simp only [hown (t := t) .created (by rw [hc]; rfl), Option.some.injEq] at hu
    rw [← hu]
    exact (h.goto c (.ptid t) nofun).frame rfl rfl rfl
  | ptid t =>
    rw [hc] at hu
    simp only [hown (t := t) .created (by rw [hc]; rfl), Option.some.injEq] at hu
    rw [← hu]
    exact (h.goto c (.start t) nofun).frame rfl rfl rfl
  | start t =>
    rw [hc] at hu
    cases hu
    exact (h.goto c (.noteTask t) nofun).frame rfl rfl rfl
  | refused t =>
    rw [hc] at hu
    cases hu
    refine (h.free fun d hd => ?_).goto c .idle nofun
    -- a record that was linked was not refused
    have hdenied := (hi.calls c t .refused (by rw [hc]; rfl)).2.2
    rw [(hi.returning d t hd).2] at hdenied
    cases hdenied
  | noteTask t =>
    rw [hc] at hu
    simp only [hown (t := t) .started (by rw [hc]; rfl), Option.some.injEq] at hu
    rw [← hu]
    exact h.goto c (.linkLock t) nofun
  | linkLock t =>
    rw [hc] at hu
    exact h.lock hu nofun
  | link t =>
    rw [hc] at hu
    have hhold : (s.call c).holding = some (t, .started) := by rw [hc]; rfl
    simp only [hown _ hhold, Option.some.injEq] at hu
    rw [← hu]
    refine ⟨h.unused, calls_goto (P := fun _ p => ∀ x, p = .ret x → s.Alive x) h.pending ?_⟩
    rintro x ⟨⟩
    exact hi.alive hhold
  | ret t =>
    rw [hc] at hu
    have halive : s.touch c [t] = s := by
      refine touch_of_alive fun x hx => ?_
      rw [List.mem_singleton.mp hx]
      exact h.pending c t hc
    simp only [halive, Option.some.injEq] at hu
    rw [← hu]
    exact h.goto c .idle nofun

theorem Sound.entryStep (h : s.Sound) (hi : s.Inv) {t : ℕ} (hu : s.entryStep t = some u) :
    u.Sound := by
  obtain ⟨⟨hpresent, hended, -⟩, e, finished, v, -, hv, rfl⟩ := entryStep_cases hu
  -- a context that runs upon a record has it, so that using it leaves no trace
  have hown : s.touch (some t) [t] = s := by
    refine touch_of_alive fun x hx => ?_
    rw [List.mem_singleton.mp hx]
    exact hi.alive_of_entry hpresent hended
  rw [hown, or_self] at hv
  subst hv
  exact h.frame rfl rfl rfl

/-- **One step of a run that is settled** uses no record that was freed. -/
theorem Sound.step (h : s.Sound) (hi : s.Inv) {l : ThreadLabel} (hset : s.Settled l)
    (hu : s.step l = some u) : u.Sound := by
  cases l with
  | clone c =>
    simp only [Threads.step, Option.ite_none_right_eq_some, Option.some.injEq] at hu
    obtain ⟨-, rfl⟩ := hu
    exact h.goto c .reapLock nofun
  | step c => exact h.cloneStep hi hset hu
  | allocFails c =>
    simp only [Threads.step, Option.ite_none_right_eq_some, Option.some.injEq] at hu
    obtain ⟨-, rfl⟩ := hu
    exact h.goto c .idle nofun
  | startFails c =>
    simp only [Threads.step] at hu
    split at hu
    · rename_i t _
      cases hu
      exact (h.goto c (.refused t) nofun).frame rfl rfl rfl
    · cases hu
  | entry t => exact h.entryStep hi hu
  | snapshotStart id =>
    simp only [Threads.step, Option.ite_none_right_eq_some, Option.some.injEq] at hu
    obtain ⟨-, rfl⟩ := hu
    exact h.frame rfl rfl rfl

end Steps

/-! ## Runs -/

/-- **A record is joined and freed once**: each record that is allocated is in one place, and was
joined only where a `reap` is about to free it; each that was freed was freed once, and joined once
before unless its start was refused, and then never. -/
structure JoinedOnce (s : Threads) : Prop where
  placed : Owned s.Owns s.hist
  alive : ∀ t, s.Alive t → s.joins t = 0 ∨ s.joins t = 1 ∧ ∃ c, s.call c = .reapFree t
  freed : ∀ t, t < s.count → ¬ s.Alive t → s.joins t = if s.denied t then 0 else 1
  denied : ∀ t, s.denied t = true → s.joins t = 0

theorem Inv.joinedOnce {s : Threads} (h : s.Inv) : s.JoinedOnce := by
  -- the place of a record says whether it was joined
  have hplace : ∀ t, s.Alive t → (s.joins t = 0 ∨ s.joins t = 1 ∧ ∃ c, s.call c = .reapFree t) ∧
      (s.denied t = true → s.joins t = 0) := by
    intro t ht
    obtain ⟨o, ho, -⟩ := h.owned.one t ht
    cases o with
    | none =>
      obtain ⟨-, hjoins, -⟩ := h.list t ho
      exact ⟨Or.inl hjoins, fun _ => hjoins⟩
    | some c =>
      obtain ⟨st, hst⟩ := ho
      have hof := h.calls c t st hst
      cases st with
      | created => exact ⟨Or.inl hof.2.1, fun _ => hof.2.1⟩
      | refused => exact ⟨Or.inl hof.2.1, fun _ => hof.2.1⟩
      | started => exact ⟨Or.inl hof.2.1, fun _ => hof.2.1⟩
      | joined =>
        refine ⟨Or.inr ⟨hof.2.1, c, ?_⟩, fun hdenied => ?_⟩
        · cases hc : s.call c <;> simp [hc, ClonePc.holding] at hst
          rw [hst]
        · rw [hof.2.2] at hdenied
          cases hdenied
  refine ⟨h.owned, fun t ht => (hplace t ht).1, fun t ht hdead => ?_, fun t ht => ?_⟩
  · rcases h.gone t ht hdead with ⟨-, hjoins, hdenied⟩ | ⟨-, hjoins, hdenied⟩
    · rw [hdenied, if_pos rfl, hjoins]
    · rw [hdenied, hjoins]
      rfl
  · by_cases halive : s.Alive t
    · exact (hplace t halive).2 ht
    · rcases Nat.lt_or_ge t s.count with hlt | hge
      · rcases h.gone t hlt halive with hg | hg
        · exact hg.2.1
        · rw [hg.2.2] at ht
          cases ht
      · exact (h.unborn t hge).2.1

/-- **A thread's record outlives its uses** in every run where no record is freed before its creator
has returned; and in every run it is joined and freed once. -/
theorem outlives_while_settled (id : BitVec 64) (s : Threads) :
    (Reachable step (start id) s → s.JoinedOnce) ∧
      (Reachable (restrict step Settled) (start id) s → s.stale = []) := by
  refine ⟨fun h => (inv_of_reachable h).joinedOnce, fun h => ?_⟩
  have hboth : s.Inv ∧ s.Sound := by
    refine h.invariant (I := fun s => s.Inv ∧ s.Sound) ⟨inv_start id, rfl, nofun⟩ ?_
    rintro u l v ⟨hi, hs⟩ hv
    obtain ⟨hset, hstep⟩ := restrict_eq_some.mp hv
    exact ⟨hi.step hstep, hs.step hi hset hstep⟩
  exact hboth.2.unused

/-- The first context starts a thread, which runs and ends, and the next start reaps it. -/
def reaping : List ThreadLabel :=
  .clone none :: List.replicate 12 (.step none) ++ List.replicate 5 (.entry 0) ++
    .clone none :: List.replicate 6 (.step none)

theorem outlives_reaping :
    ∃ s, Reachable (restrict step Settled) (start 7) s ∧ s.hist = [.got 0, .gave 0] ∧
      s.joins 0 = 1 ∧ s.JoinedOnce ∧ s.stale = [] := by
  have hrun : (run (restrict step Settled) (start 7) reaping).map
      (fun s => (s.hist, s.joins 0)) = some ([.got 0, .gave 0], 1) := by decide +kernel
  obtain ⟨s, hs, hpc⟩ := Option.map_eq_some_iff.mp hrun
  simp only [Prod.mk.injEq] at hpc
  have hreach : Reachable (restrict step Settled) (start 7) s := ⟨reaping, hs⟩
  exact ⟨s, hreach, hpc.1, hpc.2, (outlives_while_settled 7 s).1 hreach.of_restrict,
    (outlives_while_settled 7 s).2 hreach⟩

/-- The first context starts a thread and then a second, and stands before its return; the second
ends, and the first thread's own start reaps it. -/
def overtaken : List ThreadLabel :=
  .clone none :: List.replicate 12 (.step none) ++ .entry 0 ::
    .clone none :: List.replicate 12 (.step none) ++ List.replicate 5 (.entry 1) ++
    .clone (some 0) :: List.replicate 4 (.step (some 0)) ++ [.step none]

/-- **A record is read after it was freed**: the creator returns the number in it. -/
theorem read_after_free :
    ∃ s, Reachable step (start 7) s ∧ s.hist = [.got 0, .got 1, .gave 1] ∧
      s.stale = [(none, 1)] := by
  have hrun : (run step (start 7) overtaken).map (fun s => (s.hist, s.stale)) =
      some ([.got 0, .got 1, .gave 1], [(none, 1)]) := by decide +kernel
  obtain ⟨s, hs, hpc⟩ := Option.map_eq_some_iff.mp hrun
  simp only [Prod.mk.injEq] at hpc
  exact ⟨s, ⟨overtaken, hs⟩, hpc.1, hpc.2⟩

end Threads

end OpenkalMusl
