import OpenkalMusl.Chaining.Doubly
import OpenkalMusl.Transition.Parking

/-!
# Condition variables

`pthread_cond_timedwait` and `__private_cond_signal` of musl on one condition variable that is not
shared between processes, with one mutex, as any number of contexts interleave their atomic steps
(`pthread_cond_wait` is the former without a deadline; a signal is `__private_cond_signal` with 1
and a broadcast with -1).

A context that waits keeps a node on its stack, in a list of the condition variable that its lock
protects, and sleeps on the node's own barrier. A signaler marks the nodes that are oldest, takes
them off the list as a group, waits until those of them whose contexts are already leaving have
taken themselves out, and opens the barrier of the first. That one takes the mutex, and then opens
the barrier of the one after it. musl asks there that the sleeper be moved to the mutex; the port
wakes it instead (`__okm_futex`, `FUTEX_REQUEUE`).

The mutex is given by who holds it. What a section under the lock of the condition variable does to
the list is one step, except that a signaler takes a step for each node. A wait may end at any time,
as if its deadline had passed.

## Main definitions

* `Cond`: the condition variable, the nodes of its contexts, and who holds the mutex
* `LockAt`, `CondPc`: where a context is in `lock`, and in these functions
* `CondPc.next`: its next atomic step; `conditionVariable`: the protocol
* `CondPc.touches`: the nodes of other contexts that it reads or writes
-/

namespace OpenkalMusl

open Transition Chaining

/-- `state` of a waiter. -/
inductive WaiterState where
  | waiting
  | signaled
  | leaving
  deriving DecidableEq

/-- What ended a wait: a wake, its deadline, or a cancellation. -/
inductive CondEnd where
  | woken
  | expired
  | cancelled
  deriving DecidableEq

/-- A condition variable and its mutex, and what its contexts keep on their stacks for it. -/
structure Cond (C : Type*) where
  /-- `_c_lock`, `_c_head` and `_c_tail`. -/
  lock : ℕ
  head : Option C
  tail : Option C
  /-- The `struct waiter` of each context. -/
  prev : C → Option C
  next : C → Option C
  state : C → WaiterState
  barrier : C → ℕ
  notify : C → Option C
  /-- `ref` of each context that signals. -/
  ref : C → ℕ
  /-- Who holds the mutex. -/
  owner : Option C
  /-- What no step reads: the list, the oldest node first, in the part that a signaler has been
  through and the rest; and the groups that were taken off it. -/
  visited : List C
  queue : List C
  groups : List (List C)

/-- Within `__wait` on a word for a value. -/
inductive WaitAt where
  | spin (left : ℕ)
  | test
  | wait
  | asleep
  deriving DecidableEq

/-- The next step; nothing where `__wait` returns. -/
def WaitAt.next (word val : ℕ) : WaitAt → Option WaitAt
  | .spin 0 => some .test
  | .spin (n + 1) => if word = val then some (.spin n) else none
  | .test => if word = val then some .wait else none
  | .wait => some (if word = val then .asleep else .test)
  | .asleep => some .asleep

/-- Within `lock`. -/
inductive LockAt where
  | cas
  | mark
  | wait (w : WaitAt)
  | take
  deriving DecidableEq

/-- The word after the next step of `lock`, and where the context is then; nothing where it has the
lock. -/
def LockAt.next (word : ℕ) : LockAt → ℕ × Option LockAt
  | .cas => if word = 0 then (1, none) else (word, some .mark)
  | .mark => (if word = 1 then 2 else word, some (.wait (.spin 100)))
  | .wait w => (word, some ((w.next word 2).elim .take .wait))
  | .take => if word = 0 then (2, none) else (word, some (.wait (.spin 100)))

/-- What the lock of the condition variable is taken for. -/
inductive CondSection where
  | enter
  | unlink (e : CondEnd)
  | signal (n : ℤ)
  deriving DecidableEq

/-- What was done under the lock when it is given up. -/
inductive CondDone (C : Type*) where
  | entered
  | unlinked (e : CondEnd)
  | split (first : Option C)
  deriving DecidableEq

/-- Where a context is. -/
inductive CondPc (C : Type*) where
  | idle
  | lock (k : CondSection) (at_ : LockAt)
  | crit (k : CondSection)
  | unlock (d : CondDone C)
  | unlockWake (d : CondDone C)
  /-- `pthread_cond_timedwait` after the node is in the list. -/
  | release
  | park
  | parked
  | test (e : CondEnd)
  | leave (e : CondEnd)
  | notify (e : CondEnd)
  | notifyWake (e : CondEnd) (s : C)
  | barrier (e : CondEnd) (at_ : LockAt)
  | relock (e : CondEnd) (signaled : Bool)
  | pass (e : CondEnd)
  | passWake (e : CondEnd) (x : C)
  | returned (e : CondEnd)
  /-- `__private_cond_signal`: the walk from `p` on, and what follows it. -/
  | visit (n : ℤ) (p first : Option C)
  | watch (first : Option C)
  | watching (first : Option C) (cur : ℕ) (w : WaitAt)
  | free (first : Option C)
  | freeWake (x : C)
  deriving DecidableEq

inductive CondAct where
  /-- The program takes the mutex, gives it up, waits and signals. -/
  | acquire
  | giveUp
  | wait
  | signal (n : ℤ)
  | step
  /-- A wait returns without a wake, its deadline passes, or the context is cancelled. -/
  | spurious
  | expired
  | cancelled
  deriving DecidableEq

/-- The words that contexts sleep on. -/
inductive CondWord (C : Type*) where
  | lock
  | barrier (x : C)
  | ref (s : C)
  deriving DecidableEq

variable {C : Type*} [DecidableEq C]

/-! ## What is done under the lock -/

namespace Cond

variable (o : Cond C)

/-- The node of `c` is made, and put at the end of the list. -/
def enter (c : C) : Cond C where
  lock := o.lock
  head := some c
  tail := if o.tail = none then some c else o.tail
  prev :=
    let made := Function.update o.prev c none
    if o.tail = none then made else aimed made o.head (some c)
  next := Function.update o.next c o.head
  state := Function.update o.state c .waiting
  barrier := Function.update o.barrier c 2
  notify := Function.update o.notify c none
  ref := o.ref
  owner := o.owner
  visited := o.visited
  queue := o.queue ++ [c]
  groups := o.groups

/-- The node of `c` is taken out of the list it is in. -/
def unlink (c : C) : Cond C :=
  { o with
    head := if o.head = some c then o.next c else o.head
    next := if o.head = some c then o.next else aimed o.next (o.prev c) (o.next c)
    tail := if o.tail = some c then o.prev c else o.tail
    prev := if o.tail = some c then o.prev else aimed o.prev (o.next c) (o.prev c)
    queue := o.queue.erase c
    groups := o.groups.map (·.erase c) }

/-- A signaler comes to a node that waits. -/
def signals (x : C) : Cond C :=
  { o with
    state := Function.update o.state x .signaled
    visited := o.visited ++ [x]
    queue := o.queue.tail }

/-- The signaler `c` comes to a node whose context is leaving. -/
def counts (c x : C) : Cond C :=
  { o with
    ref := Function.update o.ref c (o.ref c + 1)
    notify := Function.update o.notify x (some c)
    visited := o.visited ++ [x]
    queue := o.queue.tail }

/-- The list is split before `p`. -/
def split (p : Option C) : Cond C :=
  { o with
    prev := p.elim o.prev fun b => aimed o.prev (o.next b) none
    next := aimed o.next p none
    head := if p = none then none else o.head
    tail := p
    visited := []
    groups := o.visited :: o.groups }

/-- The barrier of `x` is opened. -/
def opened (x : C) : Cond C := { o with barrier := Function.update o.barrier x 0 }

/-- The node of `c` goes, when those after it in its group are on their own. -/
def gone (c : C) : Cond C := { o with groups := o.groups.map (·.erase c) }

end Cond

/-! ## The steps -/

namespace CondPc

/-- Where a context goes when it has given the lock up. -/
def after : CondDone C → CondPc C
  | .entered => .release
  | .unlinked e => .notify e
  | .split first => .watch first

/-- What a wait that was signaled returns: it is not cancelled. -/
def consumed : CondEnd → CondEnd
  | .cancelled => .woken
  | e => e

/-- The next atomic step of the context `c`, where it neither sleeps nor wakes. -/
def next (o : Cond C) (c : C) : CondPc C → Option (Cond C × CondPc C)
  | .lock k at_ =>
    if at_ = .wait .asleep then none
    else some ({ o with lock := (at_.next o.lock).1 },
      (at_.next o.lock).2.elim (.crit k) (.lock k))
  | .crit .enter => some (o.enter c, .unlock .entered)
  | .crit (.unlink e) => some (o.unlink c, .unlock (.unlinked e))
  | .crit (.signal n) => some ({ o with ref := Function.update o.ref c 0 }, .visit n o.tail none)
  | .visit _ none first => some (o.split none, .unlock (.split first))
  | .visit n (some x) first =>
    some (if n = 0 then (o.split (some x), .unlock (.split first))
      else if o.state x = .waiting then
        (o.signals x, .visit (n - 1) (o.prev x) (first.or (some x)))
      else (o.counts c x, .visit n (o.prev x) first))
  | .unlock d => some ({ o with lock := 0 }, if o.lock = 2 then .unlockWake d else after d)
  | .release => some ({ o with owner := none }, .park)
  | .park => some (o, if o.barrier c = 2 then .parked else .test .woken)
  | .test e => some (o, if o.barrier c = 2 ∧ e = .woken then .park else .leave e)
  | .leave e =>
    some (if o.state c = .waiting then
        ({ o with state := Function.update o.state c .leaving }, .lock (.unlink e) .cas)
      else (o, .barrier e .cas))
  | .notify e =>
    some (match o.notify c with
      | none => (o, .relock e false)
      | some s =>
        ({ o with ref := Function.update o.ref s (o.ref s - 1) },
          if o.ref s = 1 then .notifyWake e s else .relock e false))
  | .barrier e at_ =>
    if at_ = .wait .asleep then none
    else some ({ o with barrier := Function.update o.barrier c (at_.next (o.barrier c)).1 },
      (at_.next (o.barrier c)).2.elim (.relock e true) (.barrier e))
  | .relock e signaled =>
    if o.owner = none then
      some ({ o with owner := some c }, if signaled then .pass e else .returned e)
    else none
  | .pass e =>
    some (match o.prev c with
      | none => (o.gone c, .returned (consumed e))
      | some x => ((o.opened x).gone c, .passWake e x))
  | .watch first =>
    some (o, if o.ref c = 0 then .free first else .watching first (o.ref c) (.spin 100))
  | .watching first cur w =>
    if w = .asleep then none
    else some (o, (w.next (o.ref c) cur).elim (.watch first) (.watching first cur))
  | .free none => some (o, .idle)
  | .free (some x) => some (o.opened x, if o.barrier x = 2 then .freeWake x else .idle)
  | .idle | .unlockWake _ | .parked | .notifyWake _ _ | .passWake _ _ | .returned _ | .freeWake _ =>
    none

/-- Outside of these functions. -/
def outside : CondPc C → Bool
  | .idle | .returned _ => true
  | _ => false

/-- Where a sleeper is when its wait has returned. -/
def released : CondPc C → CondPc C
  | .lock k (.wait .asleep) => .lock k (.wait .test)
  | .parked => .test .woken
  | .barrier e (.wait .asleep) => .barrier e (.wait .test)
  | .watching first cur .asleep => .watching first cur .test
  | pc => pc

def asleep : CondPc C → Bool
  | .lock _ (.wait .asleep) | .parked | .barrier _ (.wait .asleep) | .watching _ _ .asleep => true
  | _ => false

/-- An atomic step, what the program calls, or the end of a wait. -/
def act (c : C) (o : Cond C) (pc : CondPc C) : CondAct → Option (Cond C × CondPc C)
  | .acquire =>
    if pc.outside ∧ o.owner = none then some ({ o with owner := some c }, pc) else none
  | .giveUp => if pc.outside ∧ o.owner = some c then some ({ o with owner := none }, pc) else none
  | .wait => if pc.outside ∧ o.owner = some c then some (o, .lock .enter .cas) else none
  | .signal n => if pc.outside then some (o, .lock (.signal n) .cas) else none
  | .step => pc.next o c
  | .spurious => if pc.asleep then some (o, pc.released) else none
  | .expired =>
    match pc with
    | .park | .parked => some (o, .test .expired)
    | _ => none
  | .cancelled =>
    match pc with
    | .park => some (o, .test .cancelled)
    | _ => none

/-- The nodes of other contexts that the next step of `c` reads or writes. -/
def touches (o : Cond C) (c : C) : CondPc C → List C
  | .crit .enter => if o.tail = none then [] else o.head.toList
  | .crit (.unlink _) =>
    (if o.head = some c then [] else (o.prev c).toList) ++
      if o.tail = some c then [] else (o.next c).toList
  | .visit n (some x) _ => if n = 0 then x :: (o.next x).toList else [x]
  | .pass _ => (o.prev c).toList
  | .free first => first.toList
  | _ => []

end CondPc

/-- The protocol of a condition variable. -/
def conditionVariable (C : Type*) [DecidableEq C] :
    Parking C (Cond C) (CondPc C) CondAct (CondWord C) where
  act := CondPc.act
  sleepsOn := fun x pc => match pc with
    | .lock _ (.wait .asleep) => some .lock
    | .parked | .barrier _ (.wait .asleep) => some (.barrier x)
    | .watching _ _ .asleep => some (.ref x)
    | _ => none
  released := CondPc.released
  wakes := fun pc => match pc with
    | .unlockWake d => some (⟨.lock, false⟩, CondPc.after d)
    | .notifyWake e s => some (⟨.ref s, false⟩, .relock e false)
    | .passWake e x => some (⟨.barrier x, false⟩, .returned (CondPc.consumed e))
    | .freeWake x => some (⟨.barrier x, false⟩, .idle)
    | _ => none

/-- Contexts on one condition variable. -/
abbrev CondState (C : Type*) := Parked C (Cond C) (CondPc C)

/-- `PTHREAD_COND_INITIALIZER`, and a mutex that nobody holds. -/
def CondState.start : CondState C where
  shared :=
    { lock := 0, head := none, tail := none, prev := fun _ => none, next := fun _ => none
      state := fun _ => .waiting, barrier := fun _ => 0, notify := fun _ => none
      ref := fun _ => 0, owner := none, visited := [], queue := [], groups := [] }
  at_ := fun _ => .idle

end OpenkalMusl
