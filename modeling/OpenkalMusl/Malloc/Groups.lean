import Mathlib.Logic.Function.Basic
import OpenkalMusl.Bits.Mask

/-!
# mallocng's groups

`src/malloc/mallocng`: memory is handed out in slots, of which up to thirty-two of one size make a
group. A group's record says by two words which of its slots are free: those that the next
allocation may take, and those that were freed since. A group of small slots is laid out in a slot
of a larger one. A slot of neither word is out: with the program, in a thread's cache, or under a
group that is laid out in it.

The functions here run under the lock. An assertion that fails ends the program, and is modelled by
no result.

## Main definitions

* `Group`, `Heap`: `struct meta` and `struct malloc_context`
* `Heap.tryAvail`, `Heap.allocGroup`, `Heap.allocSlot`: a slot is taken
* `Heap.nontrivialFree`: a slot is given back, and its group with it where that was the last
-/

namespace OpenkalMusl

/-- A slot: the record of its group, and the index. -/
@[ext]
structure Slot where
  group : ℕ
  idx : ℕ
  deriving DecidableEq, Repr

/-- `struct meta`, with the header of its group. -/
structure Group where
  availMask : BitVec 32
  freedMask : BitVec 32
  lastIdx : Fin 32
  freeable : Bool
  sizeclass : ℕ
  maplen : ℕ
  /-- The slot that the group is laid out in, where it has no mapping of its own. -/
  nested : Option Slot
  activeIdx : ℕ
  deriving DecidableEq

/-- `struct malloc_context`. A list of groups is circular, and is written from its head on. -/
structure Heap where
  pagesize : ℕ
  /-- The records that are in use. -/
  metas : ℕ → Option Group
  freeMeta : List ℕ
  /-- The first record that was never in use. -/
  availMeta : ℕ
  active : ℕ → List ℕ
  usageByClass : ℕ → ℕ
  unmapSeq : ℕ → ℕ
  bounces : ℕ → ℕ
  seq : ℕ

/-- What the environment answers under the lock, to the allocation of a slot of each class: whether
there is memory for a record, and for a group. -/
structure HeapEnv where
  metaOk : ℕ → Bool
  mapOk : ℕ → Bool

/-! ## Sizes -/

namespace Malloc

/-- A group has a slot. -/
theorem slots_pos : 0 < 32 := by decide

def unit : ℕ := 16
def ib : ℕ := 4
def mmapThreshold : ℕ := 131052

def sizeClasses : List ℕ :=
  [1, 2, 3, 4, 5, 6, 7, 8, 9, 10, 12, 15, 18, 20, 25, 31, 36, 42, 50, 63, 72, 84, 102, 127,
    146, 170, 204, 255, 292, 340, 409, 511, 584, 682, 818, 1023, 1169, 1364, 1637, 2047, 2340,
    2730, 3276, 4095,
    4680, 5460, 6552, 8191]

/-- The size of a class, in units. -/
def classSize (sc : ℕ) : ℕ := sizeClasses.getD sc 0

def smallCntTab : List (ℕ × ℕ × ℕ) :=
  [(30, 30, 30), (31, 15, 15), (20, 10, 10), (31, 15, 7), (25, 12, 6), (21, 10, 5), (18, 8, 4),
    (31, 15, 7), (28, 14, 6)]

def medCntTab : List ℕ := [28, 24, 20, 32]

/-- The leading zeros of a word. -/
def clz32 (n : ℕ) : ℕ := 31 - n.log2

def sizeToClass (n : ℕ) : ℕ :=
  let n := (n + ib - 1) / 16
  if n < 10 then n
  else
    let n := n + 1
    let i := (28 - clz32 n) * 4 + 8
    let i := if n > classSize (i + 1) then i + 2 else i
    if n > classSize i then i + 1 else i

/-- A loop that halves a count. -/
def halveWhile (p : ℕ → Bool) : ℕ → ℕ → ℕ
  | 0, cnt => cnt
  | fuel + 1, cnt => if p cnt then halveWhile p fuel (cnt / 2) else cnt

/-- The count of a group that a class starts from. -/
def classCount (usage sc : ℕ) : ℕ :=
  if sc < 9 then
    let row := smallCntTab.getD sc (0, 0, 0)
    if 4 * row.1 > usage then (if 4 * row.2.1 > usage then row.2.2 else row.2.1) else row.1
  else
    let cnt := medCntTab.getD (sc % 4) 0
    let cnt := halveWhile (fun c => c % 2 = 0 && decide (4 * c > usage)) cnt cnt
    halveWhile (fun c => decide (unit * classSize sc * c ≥ 65536 * unit)) cnt cnt

/-- A count that fills fewer pages, where the one found would add more than a quarter. -/
def reducedCount (pagesize sc cnt : ℕ) : ℕ :=
  let bytes := unit * classSize sc * cnt
  if sc % 4 = 1 ∧ bytes > 8 * pagesize then 2
  else if sc % 4 = 2 ∧ bytes > 4 * pagesize then 3
  else if sc % 4 = 0 ∧ bytes > 8 * pagesize then 3
  else if sc % 4 = 0 ∧ bytes > 2 * pagesize then 5
  else cnt

def roundUp (n pagesize : ℕ) : ℕ := (n + pagesize - 1) / pagesize * pagesize

end Malloc

open Malloc

/-- The stride of a group's slots. -/
def Group.stride (g : Group) : ℕ :=
  if g.lastIdx.val = 0 ∧ g.maplen ≠ 0 then g.maplen * 4096 - unit else unit * classSize g.sizeclass

/-- Every slot of a group. -/
def Group.all (g : Group) : BitVec 32 := Mask.through 32 g.lastIdx.val

/-- The slots of a group that may be used. -/
def Group.act (g : Group) : BitVec 32 := Mask.through 32 g.activeIdx

/-- The loop that counts slots up to the next boundary of 4096. -/
def countToPage (size : ℕ) : ℕ → ℕ → ℕ → ℕ
  | 0, cnt, _ => cnt
  | fuel + 1, cnt, span =>
    if span ^^^ (span + size - 1) < 4096 then countToPage size fuel (cnt + 1) (span + size) else cnt

/-- More slots of a group may be used. -/
def Group.activateMore (g : Group) : Group :=
  let size := unit * classSize g.sizeclass
  let cnt := countToPage size 256 (g.activeIdx + 2) (unit + size * (g.activeIdx + 2))
  { g with activeIdx := (if cnt > g.lastIdx.val + 1 then g.lastIdx.val + 1 else cnt) - 1 }

namespace Heap

/-! ## The counts by which maps are kept -/

def bounceClass (sc : ℕ) : Option ℕ := if 7 ≤ sc ∧ sc - 7 < 32 then some (sc - 7) else none

def stepSeq (h : Heap) : Heap :=
  if h.seq = 255 then { h with unmapSeq := fun _ => 0, seq := 1 } else { h with seq := h.seq + 1 }

def recordSeq (h : Heap) (sc : ℕ) : Heap :=
  match bounceClass sc with
  | none => h
  | some i => { h with unmapSeq := Function.update h.unmapSeq i h.seq }

def accountBounce (h : Heap) (sc : ℕ) : Heap :=
  match bounceClass sc with
  | none => h
  | some i =>
    if h.unmapSeq i ≠ 0 ∧ h.seq < h.unmapSeq i + 10 then
      let bounces := if h.bounces i + 1 < 100 then h.bounces i + 1 else 150
      { h with bounces := Function.update h.bounces i bounces }
    else h

def decayBounces (h : Heap) (sc : ℕ) : Heap :=
  match bounceClass sc with
  | none => h
  | some i => { h with bounces := Function.update h.bounces i (h.bounces i - 1) }

def isBouncing (h : Heap) (sc : ℕ) : Bool := (bounceClass sc).any fun i => h.bounces i ≥ 100

/-! ## Records and lists -/

def setMeta (h : Heap) (m : ℕ) (g : Group) : Heap :=
  { h with metas := Function.update h.metas m (some g) }

def setActive (h : Heap) (sc : ℕ) (l : List ℕ) : Heap :=
  { h with active := Function.update h.active sc l }

/-- `alloc_meta`: a record that was freed, or a new one if there is memory for it. -/
def allocMeta (h : Heap) (ok : Bool) : Option ℕ × Heap :=
  match h.freeMeta with
  | m :: rest => (some m, { h with freeMeta := rest })
  | [] => if ok then (some h.availMeta, { h with availMeta := h.availMeta + 1 }) else (none, h)

/-- `queue`, with a record that is in no list. -/
def queueMeta (h : Heap) (m : ℕ) : Heap := { h with freeMeta := h.freeMeta ++ [m] }

/-- `queue`, with a group that is in no list. -/
def queue (h : Heap) (sc m : ℕ) : Option Heap :=
  if m ∈ h.active sc then none else some (h.setActive sc (h.active sc ++ [m]))

/-- `dequeue`. -/
def dequeue (h : Heap) (sc m : ℕ) : Heap := h.setActive sc ((h.active sc).erase m)

/-- The head of a list becomes the next of it. -/
def advance (h : Heap) (sc : ℕ) : Heap :=
  h.setActive sc ((h.active sc).tail ++ (h.active sc).take 1)

/-- `activate_group`: the freed slots that may be used are to be taken. -/
def activateGroup (h : Heap) (m : ℕ) : Option (BitVec 32 × Heap) :=
  match h.metas m with
  | none => none
  | some g =>
    if g.availMask ≠ 0 then none
    else some (g.freedMask &&& g.act,
      h.setMeta m { g with
        availMask := g.freedMask &&& g.act
        freedMask := g.freedMask &&& ~~~g.act })

/-- The first slot of a mask is taken out, and the rest are the group's to take. -/
def takeFirst (h : Heap) (m : ℕ) (mask : BitVec 32) : Option (BitVec 32 × Heap) :=
  match h.metas m with
  | none => none
  | some g => some (Mask.lowest mask, h.setMeta m { g with availMask := mask - Mask.lowest mask })

/-! ## Taking a slot -/

/-- A group that is free as a whole is passed over. -/
def skipFree (h : Heap) (sc : ℕ) : Option Heap :=
  match (h.active sc).head?.bind h.metas with
  | none => none
  | some g => some (if g.freedMask = g.all ∧ g.freeable = true then h.advance sc else h)

/-- A group with no freed slot that may be used is passed over, or gets more to use where
there is no other. -/
def useMore (h : Heap) (sc : ℕ) : Option Heap :=
  match h.active sc with
  | [] => none
  | m :: rest =>
    match h.metas m with
    | none => none
    | some g =>
      if g.freedMask &&& g.act = 0 then
        if rest ≠ [] then some (h.advance sc) else some (h.setMeta m g.activateMore)
      else some h

/-- The end of `try_avail`: the head of the list is activated. -/
def takeActivated (h : Heap) (sc : ℕ) : Option (BitVec 32 × Heap) :=
  match (h.active sc).head? with
  | none => none
  | some m =>
    match h.activateGroup m with
    | none => none
    | some (mask, h) =>
      if mask = 0 then none
      else (h.decayBounces ((h.metas m).elim 0 Group.sizeclass)).takeFirst m mask

/-- The rest of `try_avail`, where the head of the list had nothing to take and another is there. -/
def tryNext (h : Heap) (sc : ℕ) : Option (BitVec 32 × Heap) :=
  ((h.skipFree sc).bind fun h => h.useMore sc).bind fun h => h.takeActivated sc

/-- `try_avail`: the first slot of the class, or zero. -/
def tryAvail (h : Heap) (sc : ℕ) : Option (BitVec 32 × Heap) :=
  match h.active sc with
  | [] => some (0, h)
  | m :: rest =>
    match h.metas m with
    | none => none
    | some g =>
      if g.availMask ≠ 0 then h.takeFirst m g.availMask
      else
        let l := if g.freedMask = 0 then rest else rest ++ [m]
        if l = [] then some (0, h.setActive sc l) else (h.setActive sc l).tryNext sc

/-- The record of a new group, of `cnt` slots of which `used` and those before it may be used. -/
def newGroup (sc cnt used maplen : ℕ) (nested : Option Slot) : Group where
  availMask := Mask.through 32 used
  freedMask := Mask.through 32 (cnt - 1) - Mask.through 32 used
  lastIdx := Fin.ofNat 32 (cnt - 1)
  freeable := true
  sizeclass := sc
  maplen := maplen
  nested := nested
  activeIdx := used

def addUsage (h : Heap) (sc cnt : ℕ) : Heap :=
  { h with usageByClass := Function.update h.usageByClass sc (h.usageByClass sc + cnt) }

/-- The count and the bytes of a group with a mapping of its own. -/
def mappedCount (h : Heap) (nosmall : Bool) (usage sc req cnt : ℕ) : ℕ × ℕ :=
  let size := unit * classSize sc
  let cnt := if 4 * cnt > usage ∧ nosmall = false then reducedCount h.pagesize sc cnt else cnt
  let needed := roundUp (size * cnt + unit) h.pagesize
  let req := roundUp (req + ib + unit) h.pagesize
  if nosmall = false ∧ cnt ≤ 7 ∧ (req < size + unit ∨ req ≥ 4 * h.pagesize ∧ 2 * cnt > usage) then
    (1, req)
  else (cnt, needed)

/-- `alloc_group`, with `alloc_slot` for the slot that a small group is laid out in. -/
def allocGroup (env : HeapEnv) (allocSlot : Heap → ℕ → ℕ → Option (Option ℕ × Heap)) (h : Heap)
    (sc req : ℕ) : Option (Option ℕ × Heap) :=
  match h.allocMeta (env.metaOk sc) with
  | (none, h) => some (none, h)
  | (some m, h) =>
    let size := unit * classSize sc
    let usage := h.usageByClass sc
    let cnt := classCount usage sc
    let cnt := if cnt = 1 ∧ size * cnt + unit ≤ h.pagesize / 2 then 2 else cnt
    if size * cnt + unit > h.pagesize / 2 then
      let nosmall := h.isBouncing sc
      let h := (h.accountBounce sc).stepSeq
      let usage := if sc % 2 = 0 ∧ sc < 32 then usage + h.usageByClass (sc + 1) else usage
      let c := h.mappedCount nosmall usage sc req cnt
      if env.mapOk sc = false then some (none, h.queueMeta m)
      else
        let h := h.addUsage sc c.1
        let used := min ((4096 - unit) / size - 1) (c.1 - 1)
        some (some m, h.setMeta m (newGroup sc c.1 used (c.2 / 4096) none))
    else
      let j := sizeToClass (unit + cnt * size - ib)
      match allocSlot h j (unit + cnt * size - ib) with
      | none => none
      | some (none, h) => some (none, h.queueMeta m)
      | some (some idx, h) =>
        match (h.active j).head? with
        | none => none
        | some g =>
          some (some m,
            (h.addUsage sc cnt).setMeta m (newGroup sc cnt (cnt - 1) 0 (some ⟨g, idx⟩)))

/-- `alloc_slot`: a slot of the first group of the class's list, or none. -/
def allocSlot (env : HeapEnv) : ℕ → Heap → ℕ → ℕ → Option (Option ℕ × Heap)
  | 0, _, _, _ => none
  | fuel + 1, h, sc, req =>
    -- there are 48 classes, and nothing is said of another
    if 48 ≤ sc then none
    else
      match h.tryAvail sc with
      | none => none
      | some (first, h) =>
        if first ≠ 0 then some (some first.ctz.toNat, h)
        else
          match allocGroup env (allocSlot env fuel) h sc req with
          | none => none
          | some (none, h) => some (none, h)
          | some (some m, h) =>
            match h.metas m with
            | none => none
            | some g =>
              ((h.setMeta m { g with availMask := g.availMask - 1 }).queue sc m).map (some 0, ·)

/-- A group is laid out in a slot of a larger class, so that no more are made than there are
classes. -/
def allocFuel : ℕ := 48

/-! ## Giving a slot back -/

/-- `okay_to_free`. -/
def okayToFree (h : Heap) (m : ℕ) (g : Group) : Bool :=
  if g.freeable = false then false
  else if g.sizeclass ≥ 48 ∨ g.stride < unit * classSize g.sizeclass then true
  else if g.maplen = 0 then true
  else if h.active g.sizeclass ≠ [m] then true
  else if h.isBouncing g.sizeclass = false then true
  else
    let cnt := g.lastIdx.val + 1
    let usage := h.usageByClass g.sizeclass
    decide (9 * cnt ≤ usage ∧ cnt < 20)

/-- A group that is to be freed leaves its list; the next of it is activated where it was the
head. -/
def unlist (h : Heap) (m : ℕ) (g : Group) : Option Heap :=
  if m ∈ h.active g.sizeclass then
    let head := (h.active g.sizeclass).head?
    let h := h.dequeue g.sizeclass m
    match (h.active g.sizeclass).head? with
    | some next => if head = some m then (h.activateGroup next).map Prod.snd else some h
    | none => some h
  else some h

/-- The part of `free_group` before the slot that the group is laid out in: the record
is cleared. -/
def clearGroup (h : Heap) (m : ℕ) (g : Group) : Heap :=
  let usage := h.usageByClass g.sizeclass - (g.lastIdx.val + 1)
  let h := if g.sizeclass < 48 then
      { h with usageByClass := Function.update h.usageByClass g.sizeclass usage }
    else h
  let h := if g.maplen ≠ 0 then (h.stepSeq).recordSeq g.sizeclass else h
  { h with metas := Function.update h.metas m none }

/-- The end of `nontrivial_free` where the group stays. -/
def markFreed (h : Heap) (x : Slot) (g : Group) : Option Heap :=
  let h := if g.freedMask ||| g.availMask = 0 ∧ (h.active g.sizeclass).head? ≠ some x.group then
      h.queue g.sizeclass x.group
    else some h
  h.map fun h => h.setMeta x.group { g with freedMask := g.freedMask ||| Mask.bit 32 x.idx }

/-- `nontrivial_free`: the slot is freed, or its group with it. A group that is freed gives back the
slot it is laid out in. -/
def nontrivialFree : ℕ → Heap → Slot → Option Heap
  | 0, _, _ => none
  | fuel + 1, h, x =>
    match h.metas x.group with
    | none => none
    | some g =>
      if (g.freedMask ||| g.availMask) + Mask.bit 32 x.idx = g.all ∧
        h.okayToFree x.group g = true then
        match h.unlist x.group g with
        | none => none
        | some h =>
          let h := h.clearGroup x.group g
          if g.maplen ≠ 0 then some (h.queueMeta x.group)
          else
            match g.nested with
            | none => none
            | some y => (nontrivialFree fuel h y).map fun h => h.queueMeta x.group
      else h.markFreed x g

end Heap

end OpenkalMusl
