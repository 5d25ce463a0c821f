import Mathlib.Data.List.FinRange
import Mathlib.Logic.Function.Basic
import OpenkalMusl.Names.Join
import OpenkalMusl.Net.Endpoint

/-!
# The descriptor table

The static state of `okm_fd.c` and the functions over it: descriptions and the descriptors that
name them, the names of open directories, what was let go and not yet closed, the supplied
directories and the working directory. The socket table of `okm_net.c` is part of the state,
because a description that goes releases its socket under the same lock.

An index that the source spells `-1` when it is absent is `none`. The state carries the list of
what the library did that this state no longer shows (`log`): what it bound, let go, closed,
allocated and freed, in order. The names of weak openkal operations are present: a description
of a kind exists only where the operation that made it does.

## Main definitions

* `Desc`, `PortState`: an open file description, and the static state
* `descRelease`, `okmFdAlloc`, `okmFdRelease`, `okmFdBind`, `okmFdDup`: the table's operations
* `okmDirRemember`, `dirName`: the recorded names of directories
* `takeSettling`, `closeOwned`: closing what was let go
* `okmTableInit`: the table a program starts with
-/

namespace OpenkalMusl

inductive Kind where
  | free | stream | channel | file | dir | socket | null
  deriving DecidableEq, Repr

/-- What openkal gives and takes back. -/
inductive Resource where
  | file (h : Handle)
  | dir (h : Handle)
  | channel (h : Handle)
  | conn (h : Handle)
  | listener (h : Handle)
  | datagram (h : Handle)
  deriving DecidableEq, Repr

/-- What is closed after the lock is released; a socket's handles are released under it. -/
def Resource.settles : Resource → Bool
  | .file _ | .dir _ | .channel _ => true
  | .conn _ | .listener _ | .datagram _ => false

/-- An open file description: what a descriptor refers to, and what two descriptors share after
being duplicated. The defaults are those of static storage. -/
structure Desc where
  refs : Int := 0
  kind : Kind := .free
  flags : ℕ := 0
  stream : Handle := 0
  file : Handle := 0
  dir : Handle := 0
  iter : ℕ := 0
  iterOpen : Bool := false
  pathSlot : Option (Fin okmMaxDirs) := some ⟨0, by decide⟩
  pending : Bool := false
  pendingKind : ℕ := 0
  pendingName : Text := []
  sock : Option (Fin okmMaxSock) := some ⟨0, by decide⟩
  ahead : Bool := false
  aheadEof : Bool := false
  aheadByte : UInt8 := 0
  deriving DecidableEq

/-- A descriptor's slot: the description it names, or `none` when it is free. -/
structure FdSlot where
  desc : Option (Fin okmMaxDesc) := none
  cloexec : Bool := false
  deriving DecidableEq

/-- A directory name kept in memory of its own. -/
structure LongName where
  addr : ℕ
  text : Text
  deriving DecidableEq

inductive SockState where
  | free | new | listen | conn | dgram
  deriving DecidableEq, Repr

/-- A slot of the socket table. -/
structure Sock where
  state : SockState := .free
  domain : Int := 0
  type : Int := 0
  protocol : Int := 0
  /-- `bind` recorded an endpoint. -/
  haveLocal : Bool := false
  /-- `connect` recorded one. -/
  havePeer : Bool := false
  localEnd : Endpoint := {}
  peerEnd : Endpoint := {}
  conn : Handle := 0
  lis : Handle := 0
  dg : Handle := 0
  /-- `SO_RCVTIMEO` and `SO_SNDTIMEO`, in nanoseconds. -/
  rcvBound : ℕ := 0
  sndBound : ℕ := 0
  /-- What a readiness enquiry took and has not yet delivered. -/
  pendConn : Bool := false
  pend : Handle := 0
  pendMsg : Bool := false
  pendLen : ℕ := 0
  pendFrom : Endpoint := {}
  /-- The memory that holds a message, as far as one was written there. -/
  buf : Option (List UInt8) := none
  deriving DecidableEq

/-- A supplied directory. -/
structure Preopen where
  dir : Handle
  name : Text
  deriving DecidableEq

/-- A description that was let go, and the context that will close what it owned. -/
structure Settling where
  owner : Context
  d : Desc
  deriving DecidableEq

/-- What the library did, as far as the state does not show it. -/
inductive Event where
  /-- A description was bound, owning `r`. -/
  | bound (d : Fin okmMaxDesc) (r : Option Resource)
  /-- A directory's absolute name was given to be recorded. -/
  | named (d : Fin okmMaxDesc) (name : Text)
  /-- The last descriptor of a description that owned `r` went. -/
  | letGo (c : Context) (r : Resource)
  /-- The environment was asked to release `r`, which a description had owned. -/
  | closed (c : Context) (r : Resource)
  /-- The environment was asked to release `r`, which a call had obtained and bound to nothing. -/
  | returned (c : Context) (r : Resource)
  | allocated (addr size : ℕ)
  | freed (addr size : ℕ)
  deriving DecidableEq

/-- The static state of the port layer that the descriptor table's lock guards, with the
supplied directories and the working directory. -/
structure PortState where
  desc : Fin okmMaxDesc → Desc
  fd : Fin okmMaxFd → FdSlot
  dirpath : Fin okmMaxDirs → Text
  dirlong : Fin okmMaxDirs → Option LongName
  dirlongSize : Fin okmMaxDirs → ℕ
  dirpathUsed : Fin okmMaxDirs → Bool
  settling : List Settling
  sock : Fin okmMaxSock → Sock
  stdStream : Fin 3 → Handle
  pre : List Preopen
  cwd : Text
  cwdDir : Handle
  /-- The arena of the snapshot the program was started from: its address and size. -/
  arena : Option (ℕ × ℕ)
  log : List Event

namespace PortState

def record (w : PortState) (e : Event) : PortState := { w with log := w.log ++ [e] }

def setDesc (w : PortState) (d : Fin okmMaxDesc) (p : Desc) : PortState :=
  { w with desc := Function.update w.desc d p }

def setFd (w : PortState) (f : Fin okmMaxFd) (s : FdSlot) : PortState :=
  { w with fd := Function.update w.fd f s }

/-- The index a descriptor number denotes, when it is within the table. -/
def fdIndex (fd : Int) : Option (Fin okmMaxFd) :=
  if h : 0 ≤ fd ∧ fd < okmMaxFd then some ⟨fd.toNat, by omega⟩ else none

/-- The description a descriptor names. -/
def okmDescOf (w : PortState) (fd : Int) : Option (Fin okmMaxDesc) :=
  (fdIndex fd).bind fun f => (w.fd f).desc

/-! ## The names of directories -/

/-- Whether memory was the snapshot's, and not the environment's to take back. -/
def okmFromSnapshot (w : PortState) (addr : ℕ) : Bool :=
  w.arena.any fun a => a.1 ≤ addr && addr - a.1 < a.2

/-- `kal_free`, but not of the snapshot's memory. -/
def okmKalFree (w : PortState) (addr size : ℕ) : PortState :=
  if w.okmFromSnapshot addr then w else w.record (.freed addr size)

def takePathSlot (w : PortState) (i : Fin okmMaxDirs) : PortState :=
  { w with
    dirpathUsed := Function.update w.dirpathUsed i true
    dirpath := Function.update w.dirpath i [] }

def pathSlotAlloc (w : PortState) : Option (Fin okmMaxDirs × PortState) :=
  ((List.finRange okmMaxDirs).find? fun i => !w.dirpathUsed i).map fun i => (i, w.takePathSlot i)

def pathSlotClear (w : PortState) (slot : Fin okmMaxDirs) : PortState :=
  let w := match w.dirlong slot with
    | some l => w.okmKalFree l.addr (w.dirlongSize slot)
    | none => w
  { w with
    dirlong := Function.update w.dirlong slot none
    dirlongSize := Function.update w.dirlongSize slot 0
    dirpath := Function.update w.dirpath slot [] }

/-- The name kept in a slot: the long one where there is one. -/
def nameAt (w : PortState) (slot : Fin okmMaxDirs) : Option Text :=
  match w.dirlong slot with
  | some l => some l.text
  | none => if w.dirpath slot = [] then none else some (w.dirpath slot)

/-- A directory's whole absolute name, or `none` when it is not known. -/
def dirName (w : PortState) (p : Desc) : Option Text := p.pathSlot.bind w.nameAt

/-- A name kept in its slot. -/
def writeShort (w : PortState) (slot : Fin okmMaxDirs) (abs : Text) : PortState :=
  { w with dirpath := Function.update w.dirpath slot (copyStr abs abs.length okmDirPath).1 }

/-- A name kept in memory of its own. -/
def writeLong (w : PortState) (slot : Fin okmMaxDirs) (abs : Text) (addr : ℕ) : PortState :=
  { w with
    dirlong := Function.update w.dirlong slot (some ⟨addr, abs⟩)
    dirlongSize := Function.update w.dirlongSize slot (abs.length + 1)
    log := w.log ++ [.allocated addr (abs.length + 1)] }

/-- Writes a name into an empty slot, whole or not at all; `alloc` is what `kal_alloc` answers. -/
def writeName (w : PortState) (slot : Fin okmMaxDirs) (abs : Text) (alloc : Option ℕ) :
    PortState :=
  -- a name that does not fit its slot is not cut off: it has memory of its own, or is not kept
  if abs.length < okmDirPath then w.writeShort slot abs
  else match alloc with
    | none => w
    | some addr => w.writeLong slot abs addr

/-- Keeps a name in its slot in place of what was there. -/
def keepName (w : PortState) (slot : Fin okmMaxDirs) (abs : Text) (alloc : Option ℕ) :
    PortState :=
  (w.pathSlotClear slot).writeName slot abs alloc

/-- Records the absolute name of a directory that has just been opened. -/
def okmDirRemember (w : PortState) (fd : Int) (abs : Text) (alloc : Option ℕ) : PortState :=
  match w.okmDescOf fd with
  | none => w
  | some d =>
    if (w.desc d).kind ≠ .dir then w
    else
      let w := match (w.desc d).pathSlot with
        | some slot => w.keepName slot abs alloc
        | none =>
          match w.pathSlotAlloc with
          -- no slot left: the name is not known
          | none => w
          | some (slot, w) =>
            (w.setDesc d { w.desc d with pathSlot := some slot }).keepName slot abs alloc
      w.record (.named d abs)

/-! ## Closing what a description owns -/

/-- Releases a socket's slot, and what its state holds. -/
def okmSockRelease (w : PortState) (me : Context) (slot : Option (Fin okmMaxSock)) : PortState :=
  match slot with
  | none => w
  | some slot =>
    let s := w.sock slot
    let w := match s.state with
      | .conn => w.record (.closed me (.conn s.conn))
      | .listen => w.record (.closed me (.listener s.lis))
      | .dgram => w.record (.closed me (.datagram s.dg))
      | _ => w
    -- a connection accepted by a readiness enquiry and not taken since
    let w := if s.pendConn then w.record (.closed me (.conn s.pend)) else w
    { w with
      sock := Function.update w.sock slot
        { s with state := .free, pendConn := false, pendMsg := false } }

/-- Releases what a description owns. A borrowed stream is not released, and the null device
has nothing. -/
def closeOwned (w : PortState) (me : Context) (p : Desc) : PortState :=
  match p.kind with
  | .file => w.record (.closed me (.file p.file))
  | .dir => w.record (.closed me (.dir p.dir))
  | .channel => w.record (.closed me (.channel p.stream))
  | .socket => w.okmSockRelease me p.sock
  | _ => w

/-- The loop of `take_settling`: an entry of this context is taken out and the last entry moved
into its place. A turn advances `i` or shortens the array. -/
def takeSettlingLoop (me : Context) : ℕ → ℕ → List Settling → List Desc →
    List Desc × List Settling
  | 0, _, g, mine => (mine, g)
  | fuel + 1, i, g, mine =>
    match g[i]? with
    | none => (mine, g)
    | some s =>
      if s.owner ≠ me then takeSettlingLoop me fuel (i + 1) g mine
      else
        takeSettlingLoop me fuel i ((g.set i (g.getLastD s)).dropLast) (mine ++ [s.d])

/-- What this context let go of, taken out under the lock. -/
def takeSettling (w : PortState) (me : Context) : List Desc × PortState :=
  let r := takeSettlingLoop me w.settling.length 0 w.settling []
  (r.1, { w with settling := r.2 })

end PortState

/-- What the table's closing releases through `closeOwned` after the lock: the file, directory
or channel end a description owns. -/
def Desc.owned (p : Desc) : Option Resource :=
  match p.kind with
  | .file => some (.file p.file)
  | .dir => some (.dir p.dir)
  | .channel => some (.channel p.stream)
  | _ => none

/-- A description as it is left when its last descriptor has gone. -/
def Desc.released (p : Desc) : Desc :=
  { p with
    kind := .free, iter := 0, iterOpen := false, pathSlot := none, pending := false, sock := none,
    ahead := false, aheadEof := false }

/-- The fields `okm_fd_bind` gives a description. -/
def Desc.bind (p : Desc) (kind : Kind) (stream file dir : Handle) (flags : ℕ) : Desc :=
  { p with
    refs := 1, kind := kind, flags := flags, stream := stream, file := file, dir := dir, iter := 0,
    iterOpen := false, pathSlot := none, pending := false, sock := none, ahead := false,
    aheadEof := false }

namespace PortState

/-- The letting go of what a description owned is recorded. -/
def noteLetGo (w : PortState) (me : Context) (p : Desc) : PortState :=
  match p.owned with
  | some r => w.record (.letGo me r)
  | none => w

/-- The part of `desc_release` that gives up what the description owned: a socket under the
lock, a stream and the null device not at all, and anything else when this context releases the
lock, or at once where there is no place left to keep it. -/
def settle (w : PortState) (me : Context) (p : Desc) : PortState :=
  if p.kind = .socket then w.closeOwned me p
  else if p.kind ≠ .stream ∧ p.kind ≠ .free ∧ p.kind ≠ .null then
    if w.settling.length < okmSettlingMax then { w with settling := w.settling ++ [⟨me, p⟩] }
    else w.closeOwned me p
  else w

def letGo (w : PortState) (me : Context) (p : Desc) : PortState :=
  (w.noteLetGo me p).settle me p

/-- The part of `desc_release` that gives up the recorded name. -/
def dropName (w : PortState) (p : Desc) : PortState :=
  match p.pathSlot with
  | some slot =>
    let w := w.pathSlotClear slot
    { w with dirpathUsed := Function.update w.dirpathUsed slot false }
  | none => w

/-- One descriptor less names the description; what it owns goes with the last. -/
def descRelease (w : PortState) (me : Context) (d : Fin okmMaxDesc) : PortState :=
  let p := { w.desc d with refs := (w.desc d).refs - 1 }
  if p.refs > 0 then w.setDesc d p
  else ((w.letGo me p).dropName p).setDesc d p.released

/-! ## The descriptors -/

/-- The first description no descriptor names. -/
def descAlloc (w : PortState) : Option (Fin okmMaxDesc) :=
  (List.finRange okmMaxDesc).find? fun d => (w.desc d).refs = 0

/-- The lowest free descriptor at or above `from_`. -/
def okmFdAlloc (w : PortState) (from_ : Int) : Except Errno (Fin okmMaxFd) :=
  let from_ := if from_ < 0 then 0 else from_
  match (List.finRange okmMaxFd).find? fun f => from_ ≤ f.val ∧ (w.fd f).desc = none with
  | some f => .ok f
  | none => .error .emfile

def okmFdRelease (w : PortState) (me : Context) (fd : Int) : PortState :=
  match fdIndex fd with
  | none => w
  | some f =>
    match (w.fd f).desc with
    | none => w
    | some d => (w.setFd f {}).descRelease me d

/-- What a descriptor names is released, before the descriptor is written again. -/
def vacate (w : PortState) (me : Context) (f : Fin okmMaxFd) : PortState :=
  match (w.fd f).desc with
  | some old => w.descRelease me old
  | none => w

/-- A description is written as it is bound. -/
def bindDesc (w : PortState) (d : Fin okmMaxDesc) (p : Desc) : PortState :=
  (w.setDesc d p).record (.bound d p.owned)

/-- Binds a description to a descriptor; what the descriptor named before is released. -/
def okmFdBind (w : PortState) (me : Context) (fd : Int) (kind : Kind)
    (stream file dir : Handle) (flags : ℕ) : PortState × Except Errno (Fin okmMaxFd) :=
  match fdIndex fd with
  | none => (w, .error .ebadf)
  | some f =>
    match w.descAlloc with
    | none => (w, .error .enfile)
    | some d =>
      -- the new description is taken before the old one goes, so they are never the same
      let w := (w.bindDesc d ((w.desc d).bind kind stream file dir flags)).vacate me f
      (w.setFd f ⟨some d, hasFlag flags oCloexec⟩, .ok f)

/-- One descriptor more names the description. -/
def addRef (w : PortState) (d : Fin okmMaxDesc) : PortState :=
  w.setDesc d { w.desc d with refs := (w.desc d).refs + 1 }

/-- Makes `newfd` name what `fd` names; a negative `newfd` asks for the lowest free one. -/
def okmFdDup (w : PortState) (me : Context) (fd newfd : Int) (cloexec : Bool) :
    PortState × Except Errno (Fin okmMaxFd) :=
  match fdIndex fd with
  | none => (w, .error .ebadf)
  | some f =>
    match (w.fd f).desc with
    | none => (w, .error .ebadf)
    | some d =>
      let target : Except Errno (Fin okmMaxFd) :=
        if newfd < 0 then w.okmFdAlloc 0
        else match fdIndex newfd with
          | none => .error .ebadf
          | some n => .ok n
      match target with
      | .error e => (w, .error e)
      | .ok n =>
        -- upon itself nothing happens, and the descriptor keeps its flag
        if n = f then (w, .ok n)
        else
          (((w.vacate me n).addRef d).setFd n ⟨some d, cloexec⟩, .ok n)

def okmFdCloexec (w : PortState) (fd : Int) (on : Bool) : PortState × Except Errno Unit :=
  match fdIndex fd with
  | none => (w, .error .ebadf)
  | some f =>
    match (w.fd f).desc with
    | none => (w, .error .ebadf)
    | some d => (w.setFd f ⟨some d, on⟩, .ok ())

/-- Every descriptor released, as the waiting image of `execve` does. -/
def releaseAll (w : PortState) (me : Context) : PortState :=
  (List.finRange okmMaxFd).foldl (fun w f => w.okmFdRelease me f.val) w

/-! ## The socket table -/

/-- A free slot, cleared but for its buffer, which outlives a socket. -/
def slotAlloc (w : PortState) : Option (Fin okmMaxSock × PortState) :=
  ((List.finRange okmMaxSock).find? fun i => (w.sock i).state = .free).map fun i =>
    (i, { w with sock := Function.update w.sock i { state := .new, buf := (w.sock i).buf } })

end PortState

/-! ## The table a program starts with -/

/-- What the environment supplies at the start: the three streams, the directories with their
names, and the snapshot's arena. -/
structure Start where
  streams : Fin 3 → Handle
  preopens : List (Option Preopen)
  arena : Option (ℕ × ℕ)

/-- A program supplied with the root and one directory beneath it. -/
def Start.supplied : Start where
  streams := fun i => i.val + 1
  preopens := [some ⟨7, ['/']⟩, some ⟨8, ['/', 'a']⟩]
  arena := none

namespace PortState

/-- Static storage, with every descriptor free. -/
def okmTableInitMemory (start : Start) : PortState where
  desc := fun _ => {}
  fd := fun _ => {}
  dirpath := fun _ => []
  dirlong := fun _ => none
  dirlongSize := fun _ => 0
  dirpathUsed := fun _ => false
  settling := []
  sock := fun _ => {}
  stdStream := fun _ => 0
  pre := []
  cwd := ['/']
  cwdDir := 0
  arena := start.arena
  log := []

/-- The names of the supplied directories: one the environment does not answer for, or whose
name does not fit its place, is passed over, and sixteen are kept. -/
def takePreopens (answers : List (Option Preopen)) : List Preopen :=
  ((answers.filterMap id).filter fun p => p.name.length < 256).take 16

/-- The program's own three streams are descriptors 0, 1 and 2. -/
def bindStreams (w : PortState) (me : Context) (streams : Fin 3 → Handle) : PortState :=
  let w := { w with stdStream := streams }
  let w := (w.okmFdBind me 0 .stream (streams 0) 0 0 oRdonly).1
  let w := (w.okmFdBind me 1 .stream (streams 1) 0 0 oWronly).1
  (w.okmFdBind me 2 .stream (streams 2) 0 0 oWronly).1

/-- The three streams, the supplied directories and the working directory. -/
def okmTableInitStreams (w : PortState) (me : Context) (start : Start) : PortState :=
  let w := { w.bindStreams me start.streams with pre := takePreopens start.preopens }
  match w.pre with
  | [] => w
  | p :: _ => { w with cwdDir := p.dir, cwd := (copyStr p.name p.name.length okmMaxPath).1 }

def okmTableInit (me : Context) (start : Start) : PortState :=
  (okmTableInitMemory start).okmTableInitStreams me start

/-! ## What the functions leave alone -/

section Frames

variable (w : PortState) (me : Context) (p : Desc) (slot : Fin okmMaxDirs)

@[simp] theorem setDesc_fd (d : Fin okmMaxDesc) : (w.setDesc d p).fd = w.fd := rfl

@[simp] theorem setDesc_dirpath (d : Fin okmMaxDesc) : (w.setDesc d p).dirpath = w.dirpath := rfl

@[simp] theorem setDesc_dirlong (d : Fin okmMaxDesc) : (w.setDesc d p).dirlong = w.dirlong := rfl

@[simp] theorem setDesc_dirpathUsed (d : Fin okmMaxDesc) :
    (w.setDesc d p).dirpathUsed = w.dirpathUsed := rfl

@[simp] theorem setDesc_settling (d : Fin okmMaxDesc) : (w.setDesc d p).settling = w.settling := rfl

@[simp] theorem setDesc_arena (d : Fin okmMaxDesc) : (w.setDesc d p).arena = w.arena := rfl

@[simp] theorem setDesc_log (d : Fin okmMaxDesc) : (w.setDesc d p).log = w.log := rfl

theorem setDesc_desc (d : Fin okmMaxDesc) : (w.setDesc d p).desc = Function.update w.desc d p := rfl

@[simp] theorem setFd_desc (f : Fin okmMaxFd) (s : FdSlot) : (w.setFd f s).desc = w.desc := rfl

@[simp] theorem setFd_arena (f : Fin okmMaxFd) (s : FdSlot) : (w.setFd f s).arena = w.arena := rfl

@[simp] theorem record_fd (e : Event) : (w.record e).fd = w.fd := rfl

@[simp] theorem record_desc (e : Event) : (w.record e).desc = w.desc := rfl

@[simp] theorem record_dirlong (e : Event) : (w.record e).dirlong = w.dirlong := rfl

@[simp] theorem record_settling (e : Event) : (w.record e).settling = w.settling := rfl

@[simp] theorem record_arena (e : Event) : (w.record e).arena = w.arena := rfl

@[simp] theorem record_log (e : Event) : (w.record e).log = w.log ++ [e] := rfl

@[simp] theorem okmKalFree_fd (addr size : ℕ) :
    (w.okmKalFree addr size).fd = w.fd := by
  unfold okmKalFree
  split <;> rfl

@[simp] theorem okmKalFree_desc (addr size : ℕ) :
    (w.okmKalFree addr size).desc = w.desc := by
  unfold okmKalFree
  split <;> rfl

@[simp] theorem okmKalFree_dirpath (addr size : ℕ) :
    (w.okmKalFree addr size).dirpath = w.dirpath := by
  unfold okmKalFree
  split <;> rfl

@[simp] theorem okmKalFree_dirlong (addr size : ℕ) :
    (w.okmKalFree addr size).dirlong = w.dirlong := by
  unfold okmKalFree
  split <;> rfl

@[simp] theorem okmKalFree_dirlongSize (addr size : ℕ) :
    (w.okmKalFree addr size).dirlongSize = w.dirlongSize := by
  unfold okmKalFree
  split <;> rfl

@[simp] theorem okmKalFree_dirpathUsed (addr size : ℕ) :
    (w.okmKalFree addr size).dirpathUsed = w.dirpathUsed := by
  unfold okmKalFree
  split <;> rfl

@[simp] theorem okmKalFree_settling (addr size : ℕ) :
    (w.okmKalFree addr size).settling = w.settling := by
  unfold okmKalFree
  split <;> rfl

@[simp] theorem okmKalFree_arena (addr size : ℕ) :
    (w.okmKalFree addr size).arena = w.arena := by
  unfold okmKalFree
  split <;> rfl

@[simp] theorem pathSlotClear_fd : (w.pathSlotClear slot).fd = w.fd := by
  unfold pathSlotClear
  split <;> simp

@[simp] theorem pathSlotClear_desc : (w.pathSlotClear slot).desc = w.desc := by
  unfold pathSlotClear
  split <;> simp

@[simp] theorem pathSlotClear_dirpathUsed : (w.pathSlotClear slot).dirpathUsed = w.dirpathUsed := by
  unfold pathSlotClear
  split <;> simp

@[simp] theorem pathSlotClear_settling : (w.pathSlotClear slot).settling = w.settling := by
  unfold pathSlotClear
  split <;> simp

@[simp] theorem pathSlotClear_arena : (w.pathSlotClear slot).arena = w.arena := by
  unfold pathSlotClear
  split <;> simp

@[simp] theorem writeName_fd (abs : Text) (alloc : Option ℕ) :
    (w.writeName slot abs alloc).fd = w.fd := by
  unfold writeName
  split_ifs
  · rfl
  · cases alloc <;> rfl

@[simp] theorem keepName_fd (abs : Text) (alloc : Option ℕ) :
    (w.keepName slot abs alloc).fd = w.fd := by
  simp [keepName]

@[simp] theorem writeName_desc (abs : Text) (alloc : Option ℕ) :
    (w.writeName slot abs alloc).desc = w.desc := by
  unfold writeName
  split_ifs
  · rfl
  · cases alloc <;> rfl

@[simp] theorem keepName_desc (abs : Text) (alloc : Option ℕ) :
    (w.keepName slot abs alloc).desc = w.desc := by
  simp [keepName]

@[simp] theorem writeName_settling (abs : Text) (alloc : Option ℕ) :
    (w.writeName slot abs alloc).settling = w.settling := by
  unfold writeName
  split_ifs
  · rfl
  · cases alloc <;> rfl

@[simp] theorem keepName_settling (abs : Text) (alloc : Option ℕ) :
    (w.keepName slot abs alloc).settling = w.settling := by
  simp [keepName]

@[simp] theorem okmSockRelease_fd (slot : Option (Fin okmMaxSock)) :
    (w.okmSockRelease me slot).fd = w.fd := by
  unfold okmSockRelease
  split
  · rfl
  · simp only
    split <;> split <;> simp

@[simp] theorem okmSockRelease_desc (slot : Option (Fin okmMaxSock)) :
    (w.okmSockRelease me slot).desc = w.desc := by
  unfold okmSockRelease
  split
  · rfl
  · simp only
    split <;> split <;> simp

@[simp] theorem okmSockRelease_settling (slot : Option (Fin okmMaxSock)) :
    (w.okmSockRelease me slot).settling = w.settling := by
  unfold okmSockRelease
  split
  · rfl
  · simp only
    split <;> split <;> simp

@[simp] theorem okmSockRelease_arena (slot : Option (Fin okmMaxSock)) :
    (w.okmSockRelease me slot).arena = w.arena := by
  unfold okmSockRelease
  split
  · rfl
  · simp only
    split <;> split <;> simp

@[simp] theorem closeOwned_fd : (w.closeOwned me p).fd = w.fd := by
  unfold closeOwned
  split <;> simp

@[simp] theorem closeOwned_desc : (w.closeOwned me p).desc = w.desc := by
  unfold closeOwned
  split <;> simp

@[simp] theorem closeOwned_settling : (w.closeOwned me p).settling = w.settling := by
  unfold closeOwned
  split <;> simp

@[simp] theorem closeOwned_arena : (w.closeOwned me p).arena = w.arena := by
  unfold closeOwned
  split <;> simp

@[simp] theorem letGo_fd : (w.letGo me p).fd = w.fd := by
  unfold letGo settle noteLetGo
  cases p.owned <;> simp only <;> split_ifs <;> simp

@[simp] theorem letGo_desc : (w.letGo me p).desc = w.desc := by
  unfold letGo settle noteLetGo
  cases p.owned <;> simp only <;> split_ifs <;> simp

@[simp] theorem letGo_arena : (w.letGo me p).arena = w.arena := by
  unfold letGo settle noteLetGo
  cases p.owned <;> simp only <;> split_ifs <;> simp

@[simp] theorem dropName_fd : (w.dropName p).fd = w.fd := by
  unfold dropName
  split <;> simp

@[simp] theorem dropName_desc : (w.dropName p).desc = w.desc := by
  unfold dropName
  split <;> simp

@[simp] theorem dropName_settling : (w.dropName p).settling = w.settling := by
  unfold dropName
  split <;> simp

@[simp] theorem dropName_arena : (w.dropName p).arena = w.arena := by
  unfold dropName
  split <;> simp

end Frames

/-- What a bind can do: nothing, or write a description none names, release what the descriptor
named, and write the descriptor. -/
theorem okmFdBind_cases (w : PortState) (me : Context) (fd : Int) (kind : Kind)
    (stream file dir : Handle) (flags : ℕ) :
    (w.okmFdBind me fd kind stream file dir flags).1 = w ∨
      ∃ f d, fdIndex fd = some f ∧ w.descAlloc = some d ∧
        (w.okmFdBind me fd kind stream file dir flags).1 =
          ((w.bindDesc d ((w.desc d).bind kind stream file dir flags)).vacate me f).setFd f
            ⟨some d, hasFlag flags oCloexec⟩ := by
  unfold okmFdBind
  cases hf : fdIndex fd with
  | none => exact Or.inl rfl
  | some f =>
    cases hd : w.descAlloc with
    | none => exact Or.inl rfl
    | some d => exact Or.inr ⟨f, d, rfl, rfl, rfl⟩

/-- What a duplication can do: nothing, or release what another descriptor named, and make it name
what the given one names. -/
theorem okmFdDup_cases (w : PortState) (me : Context) (fd newfd : Int) (cloexec : Bool) :
    (w.okmFdDup me fd newfd cloexec).1 = w ∨
      ∃ f n d, (w.fd f).desc = some d ∧ n ≠ f ∧
        (w.okmFdDup me fd newfd cloexec).1 =
          ((w.vacate me n).addRef d).setFd n ⟨some d, cloexec⟩ := by
  unfold okmFdDup
  cases hf : fdIndex fd with
  | none => exact Or.inl rfl
  | some f =>
    cases hd : (w.fd f).desc with
    | none => exact Or.inl (by simp only [hd])
    | some d =>
      simp only [hd]
      split
      · exact Or.inl rfl
      · rename_i n _
        split_ifs with hn
        · exact Or.inl rfl
        · exact Or.inr ⟨f, n, d, hd, hn, rfl⟩

/-- What a release can do: nothing, or free the descriptor and release what it named. -/
theorem okmFdRelease_cases (w : PortState) (me : Context) (fd : Int) :
    w.okmFdRelease me fd = w ∨
      ∃ f d, (w.fd f).desc = some d ∧
        w.okmFdRelease me fd = (w.setFd f {}).descRelease me d := by
  unfold okmFdRelease
  cases hf : fdIndex fd with
  | none => exact Or.inl rfl
  | some f =>
    cases hd : (w.fd f).desc with
    | none => exact Or.inl (by simp only [hd])
    | some d => exact Or.inr ⟨f, d, hd, by simp only [hd]⟩

theorem okmFdCloexec_cases (w : PortState) (fd : Int) (on : Bool) :
    (w.okmFdCloexec fd on).1 = w ∨
      ∃ f d, (w.fd f).desc = some d ∧ (w.okmFdCloexec fd on).1 = w.setFd f ⟨some d, on⟩ := by
  unfold okmFdCloexec
  cases hf : fdIndex fd with
  | none => exact Or.inl rfl
  | some f =>
    cases hd : (w.fd f).desc with
    | none => exact Or.inl (by simp only [hd])
    | some d => exact Or.inr ⟨f, d, hd, by simp only [hd]⟩

/-- What recording a name can do: nothing where the descriptor is no directory's, and otherwise
keep it in the description's slot or in one just taken, or nowhere when no slot is left. -/
theorem okmDirRemember_cases (w : PortState) (fd : Int) (abs : Text) (alloc : Option ℕ) :
    w.okmDirRemember fd abs alloc = w ∨
      ∃ d, (w.desc d).kind = .dir ∧
        ((∃ slot, (w.desc d).pathSlot = some slot ∧
            w.okmDirRemember fd abs alloc =
              (w.keepName slot abs alloc).record (.named d abs)) ∨
          (w.desc d).pathSlot = none ∧
            (w.okmDirRemember fd abs alloc = w.record (.named d abs) ∨
              ∃ slot, w.dirpathUsed slot = false ∧
                w.okmDirRemember fd abs alloc =
                  (((w.takePathSlot slot).setDesc d
                    { w.desc d with pathSlot := some slot }).keepName slot abs alloc).record
                      (.named d abs))) := by
  unfold okmDirRemember
  cases w.okmDescOf fd with
  | none => exact Or.inl rfl
  | some d =>
    by_cases hkind : (w.desc d).kind = .dir
    · refine Or.inr ⟨d, hkind, ?_⟩
      have hdir : ¬ (w.desc d).kind ≠ .dir := not_not.mpr hkind
      simp only [if_neg hdir]
      cases hslot : (w.desc d).pathSlot with
      | some slot => exact Or.inl ⟨slot, rfl, rfl⟩
      | none =>
        refine Or.inr ⟨rfl, ?_⟩
        cases hfree : w.pathSlotAlloc with
        | none => exact Or.inl rfl
        | some r =>
          obtain ⟨slot, hused, rfl⟩ := Option.map_eq_some_iff.mp hfree
          refine Or.inr ⟨slot, by simpa using List.find?_some hused, rfl⟩
    · exact Or.inl (by simp [hkind])

end PortState

end OpenkalMusl
