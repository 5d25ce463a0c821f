import Mathlib.Data.Finset.Card
import OpenkalMusl.Malloc.Issued
import OpenkalMusl.Transition.Run

/-!
# A thread's small allocations from its own cache

`okm_malloc_tc.c`, with `malloc` and `free` around it and the ends of a thread. Once a program has a
second thread, each keeps the slots it frees of the small classes and takes them back without the
lock; a call that does take the lock claims a few more. Between two calls the program has a slot, a
cache, or the heap; inside one it is in transit.

A locked section is one step. What is outside the lock is taken apart: the words of a group are read
one at a time, and a compare-and-exchange is a step. The library maps a cache, a large allocation
and what it unmaps through openkal, which may allocate meanwhile: what was begun waits below, and
holds no slot.

## Main definitions

* `Cache`: `struct malloc_tc`
* `Thread`, `CacheSystem`: a thread's record, and the threads on one heap
* `CacheSystem.step`: the steps of malloc, free, and of the beginning and the end of a thread
-/

namespace OpenkalMusl

open Malloc Transition

def tcClasses : ℕ := 24
def tcMax : ℕ := 16
def tcBatch : ℕ := 8

/-- `struct malloc_tc`. -/
structure Cache where
  n : ℕ → ℕ
  slot : ℕ → ℕ → Slot

namespace Cache

/-- A mapping is zero to begin with. -/
def empty : Cache := ⟨fun _ => 0, fun _ _ => ⟨0, 0⟩⟩

def push (tc : Cache) (c : ℕ) (x : Slot) : Cache where
  n := Function.update tc.n c (tc.n c + 1)
  slot := Function.update tc.slot c (Function.update (tc.slot c) (tc.n c) x)

def pop (tc : Cache) (c : ℕ) : Cache := { tc with n := Function.update tc.n c (tc.n c - 1) }

def last (tc : Cache) (c : ℕ) : Slot := tc.slot c (tc.n c - 1)

/-- The class that a slot of the class is taken from: itself, or the coarse one above an
even one. -/
def takeClass (tc : Cache) (sc : ℕ) : Option ℕ :=
  if tc.n sc ≠ 0 then some sc
  else if sc < 4 ∨ sc % 2 = 1 ∨ tcClasses ≤ sc ||| 1 ∨ tc.n (sc ||| 1) = 0 then none
  else some (sc ||| 1)

end Cache

/-- The field `malloc_tc` of a thread's record. -/
inductive TcField where
  | unused
  | pending
  | off
  | held
  deriving DecidableEq

/-- `libc.need_locks`: 0, 1 and -1. -/
inductive NeedLocks where
  | off
  | on
  | last
  deriving DecidableEq

/-- Where a thread is in `malloc` and `free`. -/
inductive MallocPc where
  | idle
  /-- `malloc`, before it asks whether there are several threads. -/
  | malloc (n : ℕ)
  /-- `__malloc_tc_take`. -/
  | take (n : ℕ)
  /-- Before the lock. -/
  | lock (n : ℕ)
  /-- `enframe`. -/
  | framing (x : Slot)
  /-- `free`, before it asks whether there are several threads. -/
  | free (x : Slot)
  /-- `__malloc_release_slot`: before it reads the word of the freed slots, before it reads the
  other, and with both. -/
  | release (x : Slot)
  | readFreed (x : Slot) (freed : BitVec 32)
  | readBoth (x : Slot) (freed avail : BitVec 32)
  | relock (x : Slot)
  deriving DecidableEq

/-- The slot in transit. -/
def MallocPc.slot? : MallocPc → Option Slot
  | .idle | .malloc _ | .take _ | .lock _ => none
  | .framing x | .free x | .release x | .readFreed x _ | .readBoth x _ _ | .relock x => some x

/-- What a thread has begun and waits for. -/
inductive MallocFrame where
  /-- `own_cache`, for its mapping. -/
  | mapping (n : ℕ)
  /-- `malloc`, for the mapping of a large allocation. -/
  | large (n : ℕ)
  /-- `__malloc_tc_flush`, at a class. -/
  | flush (c : ℕ)
  /-- `__pthread_exit`, after the flush. -/
  | ending
  deriving DecidableEq

/-- A thread's record, and where the thread is. -/
structure MallocThread where
  field : TcField
  cache : Cache
  now : MallocPc
  below : List MallocFrame

namespace MallocThread

/-- A thread that begins. -/
def new : MallocThread := ⟨.unused, .empty, .idle, []⟩

/-- `__malloc_tc_take`. -/
def tcTake (th : MallocThread) (n : ℕ) : MallocThread :=
  let sc := sizeToClass n
  if tcClasses ≤ sc then { th with now := .lock n }
  else
    match th.field with
    | .unused => { th with field := .pending, now := .idle, below := .mapping n :: th.below }
    | .pending | .off => { th with now := .lock n }
    | .held =>
      match th.cache.takeClass sc with
      | none => { th with now := .lock n }
      | some c => { th with cache := th.cache.pop c, now := .framing (th.cache.last c) }

/-- `__malloc_tc_give`, where the slot is kept. -/
def tcGive (th : MallocThread) (g : Group) (x : Slot) : Option MallocThread :=
  if tcClasses ≤ g.sizeclass ∨ g.lastIdx.val = 0 ∨ th.field ≠ .held ∨
      tcMax ≤ th.cache.n g.sizeclass then none
  else some { th with cache := th.cache.push g.sizeclass x, now := .idle }

/-- The mapping of the cache returns. -/
def mapped (th : MallocThread) (ok : Bool) (n : ℕ) (rest : List MallocFrame) : MallocThread :=
  if ok then { th with field := .held, cache := .empty, now := .take n, below := rest }
  else { th with field := .off, now := .take n, below := rest }

/-- `__malloc_tc_flush` begins. -/
def flush (th : MallocThread) : MallocThread :=
  { th with field := .off, below := if th.field = .held then [.flush 0] else [.ending] }

/-- The loops of `__malloc_tc_flush`. -/
def flushNext (th : MallocThread) (c : ℕ) (rest : List MallocFrame) : MallocThread :=
  if tcClasses ≤ c then { th with below := .ending :: rest }
  else if th.cache.n c = 0 then { th with below := .flush (c + 1) :: rest }
  else { th with cache := th.cache.pop c, now := .release (th.cache.last c) }

end MallocThread

/-! ## What is done under the lock -/

namespace Heap

/-- The coarse class serves an even one at first. -/
def coarseClass (h : Heap) (sc : ℕ) : ℕ :=
  if h.active sc = [] ∧ 4 ≤ sc ∧ sc < 32 ∧ sc ≠ 6 ∧ sc % 2 = 0 ∧ h.usageByClass sc = 0 then
    let nothing := match (h.active (sc ||| 1)).head?.bind h.metas with
      | none => true
      | some g => g.availMask = 0 ∧ g.freedMask = 0
    let usage := h.usageByClass (sc ||| 1) + if nothing then 3 else 0
    if usage ≤ 12 then sc ||| 1 else sc
  else sc

/-- `alloc_slot`, where the class's group had none to take, with the group. -/
def allocNew (env : HeapEnv) (h : Heap) (sc n : ℕ) : Option (Option Slot × Heap) :=
  match allocSlot env allocFuel h sc n with
  | none => none
  | some (none, h) => some (none, h)
  | some (some idx, h) => (h.active sc).head?.map fun m => (some ⟨m, idx⟩, h)

/-- The slot that `malloc` serves under the lock. -/
def mallocSlot (env : HeapEnv) (h : Heap) (sc n : ℕ) : Option (Option Slot × Heap) :=
  match (h.active sc).head? with
  | none => h.allocNew env sc n
  | some m =>
    match h.metas m with
    | none => none
    | some g =>
      if g.availMask = 0 then h.allocNew env sc n
      else (h.takeFirst m g.availMask).map fun r => (some ⟨m, r.1.ctz.toNat⟩, r.2)

/-- The record of an allocation with a mapping of its own. -/
def largeGroup (n : ℕ) : Group where
  availMask := 0
  freedMask := 0
  lastIdx := ⟨0, Malloc.slots_pos⟩
  freeable := true
  sizeclass := 63
  maplen := (n + ib + unit + 4095) / 4096
  nested := none
  activeIdx := 0

/-- The large allocations of `malloc`, once they are mapped. -/
def mallocLarge (h : Heap) (ok : Bool) (n : ℕ) : Option Slot × Heap :=
  match (h.stepSeq).allocMeta ok with
  | (none, h) => (none, h)
  | (some m, h) => (some ⟨m, 0⟩, h.setMeta m (largeGroup n))

/-- The most groups that are freed with a slot. -/
def freeFuel (h : Heap) : ℕ := h.availMeta

end Heap

/-! ## The threads -/

/-- The threads on one heap. -/
structure CacheSystem where
  heap : Heap
  needLocks : NeedLocks
  threadsMinus1 : ℕ
  thread : ℕ → MallocThread
  /-- The list of threads. -/
  alive : Finset ℕ
  /-- The thread that has counted another and not made it yet; it has the list's lock. -/
  creating : Option ℕ
  /-- What the program has. -/
  program : Finset Slot

namespace CacheSystem

/-- The first thread, and no memory yet. -/
def start (pagesize : ℕ) : CacheSystem where
  heap :=
    { pagesize := pagesize, metas := fun _ => none, freeMeta := [], availMeta := 0,
      active := fun _ => [], usageByClass := fun _ => 0, unmapSeq := fun _ => 0,
      bounces := fun _ => 0, seq := 0 }
  needLocks := .off
  threadsMinus1 := 0
  thread := fun _ => .new
  alive := {0}
  creating := none
  program := ∅

/-- `MT`. -/
def multi (s : CacheSystem) : Bool := s.needLocks ≠ .off

def setThread (s : CacheSystem) (t : ℕ) (th : MallocThread) : CacheSystem :=
  { s with thread := Function.update s.thread t th }

/-- `__lock`, by the last thread for the first time. -/
def lockTaken (s : CacheSystem) : CacheSystem :=
  { s with needLocks := if s.needLocks = .last then .off else s.needLocks }

/-- The loop of `__malloc_tc_fill`. -/
def fillLoop (t sc m : ℕ) : ℕ → CacheSystem → Option CacheSystem
  | 0, s => some s
  | fuel + 1, s =>
    if (s.thread t).cache.n sc < tcBatch then
      match s.heap.metas m with
      | none => none
      | some g =>
        if g.availMask = 0 then some s
        else
          match s.heap.takeFirst m g.availMask with
          | none => none
          | some (first, h) =>
            let th := s.thread t
            let th := { th with cache := th.cache.push sc ⟨m, first.ctz.toNat⟩ }
            fillLoop t sc m fuel ({ s with heap := h }.setThread t th)
    else some s

/-- `__malloc_tc_fill`. -/
def tcFill (s : CacheSystem) (t sc : ℕ) : Option CacheSystem :=
  if tcClasses ≤ sc ∨ (s.thread t).field ≠ .held then some s
  else
    match (s.heap.active sc).head? with
    | none => some s
    | some m => fillLoop t sc m tcBatch s

/-- The end of `malloc`'s locked section, with a slot or without. -/
def served (s : CacheSystem) (t : ℕ) (th : MallocThread) (r : Option Slot × Heap) :
    Option CacheSystem :=
  match r with
  | (none, h) => some ({ s with heap := h }.setThread t { th with now := .idle })
  | (some x, h) =>
    let s := { s with heap := h }.setThread t { th with now := .framing x }
    if s.multi then (s.heap.metas x.group).bind fun g => s.tcFill t g.sizeclass else some s

/-- `malloc` under the lock. -/
def mallocLocked (s : CacheSystem) (t : ℕ) (env : HeapEnv) (n : ℕ) : Option CacheSystem :=
  let s := s.lockTaken
  (s.heap.mallocSlot env (s.heap.coarseClass (sizeToClass n)) n).bind fun r =>
    s.served t (s.thread t) r

/-- `__malloc_release_slot` with both words read: the last or the first slot needs the lock; else
the slot is freed, unless the word was changed meanwhile. -/
def releaseTry (s : CacheSystem) (t : ℕ) (x : Slot) (freed avail : BitVec 32) :
    Option CacheSystem :=
  let th := s.thread t
  (s.heap.metas x.group).bind fun g =>
    if (freed ||| avail) &&& Mask.bit 32 x.idx ≠ 0 then none
    else if freed = 0 ∨ (freed ||| avail) + Mask.bit 32 x.idx = g.all then
      some (s.setThread t { th with now := .relock x })
    else if s.multi = true ∧ g.freedMask ≠ freed then
      some (s.setThread t { th with now := .release x })
    else
      let g := { g with freedMask := freed + Mask.bit 32 x.idx }
      some ({ s with heap := s.heap.setMeta x.group g }.setThread t { th with now := .idle })

/-- The next step of a thread that is in `malloc` or `free`. -/
def go (s : CacheSystem) (t : ℕ) (env : HeapEnv) : Option CacheSystem :=
  let th := s.thread t
  match th.now with
  | .idle => none
  | .malloc n => some (s.setThread t { th with now := if s.multi then .take n else .lock n })
  | .take n => some (s.setThread t (th.tcTake n))
  | .lock n => s.mallocLocked t env n
  | .framing x =>
    some ({ s with program := insert x s.program }.setThread t { th with now := .idle })
  | .free x =>
    (s.heap.metas x.group).map fun g =>
      match if s.multi then th.tcGive g x else none with
      | some th => s.setThread t th
      | none => s.setThread t { th with now := .release x }
  | .release x =>
    (s.heap.metas x.group).map fun g => s.setThread t { th with now := .readFreed x g.freedMask }
  | .readFreed x freed =>
    (s.heap.metas x.group).map fun g =>
      s.setThread t { th with now := .readBoth x freed g.availMask }
  | .readBoth x freed avail => s.releaseTry t x freed avail
  | .relock x =>
    let s := s.lockTaken
    (Heap.nontrivialFree s.heap.freeFuel s.heap x).map fun h =>
      { s with heap := h }.setThread t { th with now := .idle }

/-- What a thread waits for returns: a mapping, or the slot that is flushed. -/
def resume (s : CacheSystem) (t : ℕ) (ok metaOk : Bool) : Option CacheSystem :=
  let th := s.thread t
  match th.below with
  | [] => none
  | .mapping n :: rest => some (s.setThread t (th.mapped ok n rest))
  | .large n :: rest =>
    let th := { th with below := rest }
    if ok then s.lockTaken.served t th (s.heap.mallocLarge metaOk n)
    else some (s.setThread t th)
  | .flush c :: rest => some (s.setThread t (th.flushNext c rest))
  | .ending :: _ => none

/-- A move of one thread. -/
inductive Move where
  | malloc (n : ℕ)
  | free (x : Slot)
  | go (env : HeapEnv)
  | resume (ok metaOk : Bool)
  /-- A lock of the library other than malloc's. -/
  | lock
  /-- `__pthread_exit`, to its flush; and its end. -/
  | exit
  | ended
  /-- `__pthread_create`: the new thread is counted, and then made or not. -/
  | count
  | created (u : ℕ)
  | notCreated

/-- `size_overflows`, with the limit of the source for words of 64 bits. -/
def sizeOverflows (n : ℕ) : Bool := 2 ^ 63 - 1 - 4096 ≤ n

/-- A thread that is in neither function moves. -/
def call (s : CacheSystem) (t : ℕ) : Move → Option CacheSystem
  | .malloc n =>
    let th := s.thread t
    if sizeOverflows n then some s
    else if mmapThreshold ≤ n then some (s.setThread t { th with below := .large n :: th.below })
    else some (s.setThread t { th with now := .malloc n })
  | .free x =>
    if x ∈ s.program then
      some ({ s with program := s.program.erase x }.setThread t { s.thread t with now := .free x })
    else none
  | .go _ => none
  | .resume ok metaOk => s.resume t ok metaOk
  | .lock => some s.lockTaken
  | .exit => if (s.thread t).below = [] then some (s.setThread t (s.thread t).flush) else none
  | .ended =>
    if (s.thread t).below = [.ending] ∧ s.creating = none ∧ s.alive ≠ {t} then
      some { s with
        alive := s.alive.erase t
        threadsMinus1 := s.threadsMinus1 - 1
        needLocks := if s.threadsMinus1 - 1 = 0 then .last else s.needLocks }
    else none
  | .count =>
    if s.creating = none then
      some { s with
        creating := some t
        threadsMinus1 := s.threadsMinus1 + 1
        needLocks := if s.threadsMinus1 = 0 then .on else s.needLocks }
    else none
  | .created u =>
    if s.creating = some t ∧ u ∉ s.alive then
      some ({ s with creating := none, alive := insert u s.alive }.setThread u .new)
    else none
  | .notCreated =>
    if s.creating = some t then
      some { s with
        creating := none
        threadsMinus1 := s.threadsMinus1 - 1
        needLocks := if s.threadsMinus1 - 1 = 0 then .off else s.needLocks }
    else none

/-- **A thread moves.** -/
def step (s : CacheSystem) (a : ℕ × Move) : Option CacheSystem :=
  if a.1 ∈ s.alive then
    match a.2 with
    | .go env => s.go a.1 env
    | move => if (s.thread a.1).now = .idle then s.call a.1 move else none
  else none

end CacheSystem

end OpenkalMusl
