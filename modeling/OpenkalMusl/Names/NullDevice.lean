import OpenkalMusl.Names.Agreement
import OpenkalMusl.Spawn.Performed

/-!
# The null device's name

`/dev/null` is this library's name on every environment, whatever the directories it supplies hold.
A call that takes a name has to ask whether it is the device's before it resolves it
(`okm_null_name`), and answers for the device itself. A call that does not ask passes the name to
`openkal.fs`, and is answered for whatever the environment has there.

`openat`, `fstatat`, `faccessat` and `readlinkat` ask, and so does the file action of a spawn that
opens. The others do not.

## Main definitions

* `NameEnv`: what `openkal.fs` answers, by name
* `NameCall.run`: the calls that take a name, with the names that they pass on
* `AsDevice`: a call answers as for a character device, and passes no name of it on
* `NameCall.Recognises`: the calls that do

## Main results

* `okmResolve_nullName`: what a name of the null device resolves to
* `resolving_nullName`: a call that does not ask
* `asDevice_iff`: when a call answers for the null device
-/

namespace OpenkalMusl

open PortState

section Constants

def sIfmt : ℕ := 0o170000
def sIfifo : ℕ := 0o010000
def sIfchr : ℕ := 0o020000
def sIfdir : ℕ := 0o040000
def sIfreg : ℕ := 0o100000
def sIflnk : ℕ := 0o120000
def xOk : ℕ := 1
def wOk : ℕ := 2
def atSymlinkNofollow : ℕ := 0x100
def atEmptyPath : ℕ := 0x1000
def utimeNow : Int := 0x3fffffff
def utimeOmit : Int := 0x3ffffffe
def renameNoreplace : ℕ := 1
def statBlksize : ℕ := 4096

end Constants

/-- What `kal_fs_info` reports of a node; what it does not answer is `none`. -/
structure NodeInfo where
  kind : NodeKind
  size : ℕ := 0
  writable : Bool
  executable : Option Bool := none
  modifiedNs : ℕ := 0
  identity : Option (ℕ × ℕ) := none
  deriving DecidableEq

/-- What `openkal.fs` answers, and what the operations with an environment of their own are
answered. An operation that answers nothing succeeds. -/
structure NameEnv where
  /-- `kal_fs_info`, resolving or not. -/
  info : At → Bool → Except KalError NodeInfo
  fileInfo : Handle → Except KalError NodeInfo
  linkRead : At → Except KalError ℕ
  linkCreate : At → Text → Option KalError
  setExecutableAt : At → Bool → Option KalError
  setModifiedAt : At → ℕ → Option KalError
  openFile : At → KalOpen → Except KalError Handle
  setModified : Handle → ℕ → Option KalError
  truncate : Handle → ℕ → Option KalError
  mkdir : At → Option KalError
  remove : At → Option KalError
  rename : At → At → Option KalError
  renameNoReplace : At → At → Option KalError
  /-- `kal_stream_props`. -/
  interactive : Handle → Bool
  /-- `kal_time_wall`. -/
  wall : ℕ
  call : Env
  spawn : SpawnEnv

/-- A time as `struct kstat` has it. -/
structure StatTime where
  sec : ℕ := 0
  nsec : ℕ := 0
  deriving DecidableEq

/-- `struct kstat`. -/
structure Kstat where
  mode : ℕ := 0
  nlink : ℕ := 0
  uid : ℕ := 0
  gid : ℕ := 0
  dev : ℕ := 0
  ino : ℕ := 0
  rdev : ℕ := 0
  size : ℕ := 0
  blksize : ℕ := 0
  blocks : ℕ := 0
  mtime : StatTime := {}
  atime : StatTime := {}
  ctime : StatTime := {}
  deriving DecidableEq

/-- A character device, which is no directory and no link. -/
def Kstat.isCharDevice (st : Kstat) : Prop := st.mode &&& sIfmt = sIfchr

/-- What a call that takes a name answers. -/
inductive NameAnswer where
  | done
  | count (n : ℕ)
  /-- A descriptor, and whether it is the null device's. -/
  | descriptor (null : Bool)
  | stat (st : Kstat)
  /-- A position of a program to be started, and whether it is given the null device. -/
  | position (null : Bool)
  deriving DecidableEq

/-- What a call leaves: its result, and the names that it passed to `openkal.fs`. -/
structure Asking where
  result : Except Errno NameAnswer
  passed : List At := []

namespace Asking

def fails (e : Errno) : Asking := ⟨.error e, []⟩

def answers (a : NameAnswer) : Asking := ⟨.ok a, []⟩

/-- A name is passed on. -/
def passing (a : At) (r : Asking) : Asking := ⟨r.result, a :: r.passed⟩

/-- The result of an operation that answers nothing. -/
def ofKal : Option KalError → Asking
  | none => answers .done
  | some e => fails (okmErrno e)

end Asking

/-! ## The calls -/

def nullKstat : Kstat where
  mode := sIfchr ||| 0o666
  nlink := 1
  rdev := (1 <<< 8) ||| 3
  blksize := statBlksize

/-- The permission bits that are reported of a node. -/
def permissions (info : NodeInfo) : ℕ :=
  0o444 ||| (if info.writable then 0o222 else 0) |||
    if info.kind = .directory ∨ info.executable = some true then 0o111 else 0

def fillKstat (info : NodeInfo) : Kstat :=
  let time := ⟨info.modifiedNs / 1000000000, info.modifiedNs % 1000000000⟩
  { mode :=
      (match info.kind with
        | .file => sIfreg
        | .directory => sIfdir
        | .link => sIflnk
        | _ => sIfchr) ||| permissions info
    nlink := 1, uid := 1000, gid := 1000
    size := info.size
    blksize := statBlksize
    blocks := (info.size + 511) / 512
    mtime := time, atime := time, ctime := time
    dev := (info.identity.map Prod.fst).getD 0
    ino := (info.identity.map Prod.snd).getD 0 }

namespace PortState

/-- A name is resolved, and what it resolves to is used. -/
def resolving (w : PortState) (dirfd : Int) (path : Option Text) (k : At → Asking) : Asking :=
  match w.okmResolve dirfd path false with
  | .error e => .fails e
  | .ok a => k a

def doFstat (w : PortState) (env : NameEnv) (fd : Int) : Asking :=
  match w.okmDescOf fd with
  | none => .fails .ebadf
  | some d =>
    let p := w.desc d
    match p.kind with
    | .null => .answers (.stat nullKstat)
    | .file =>
      match env.fileInfo p.file with
      | .error e => .fails (okmErrno e)
      | .ok info => .answers (.stat (fillKstat info))
    | .dir =>
      -- a directory is asked about by its own name
      .passing ⟨p.dir, here, 1⟩ <|
        match env.info ⟨p.dir, here, 1⟩ true with
        | .ok info =>
          if info.kind = .directory then .answers (.stat (fillKstat info))
          else .answers (.stat (fillKstat ⟨.directory, 0, true, none, 0, none⟩))
        | .error _ => .answers (.stat (fillKstat ⟨.directory, 0, true, none, 0, none⟩))
    | kind =>
      let st := fillKstat ⟨.other, 0, true, none, 0, none⟩
      .answers <| .stat <|
        if kind = .stream then
          { st with
            mode := if env.interactive p.stream then sIfchr ||| 0o620 else sIfifo ||| 0o600 }
        else if kind = .channel then { st with mode := sIfifo ||| 0o600 }
        else st

def doFstatat (w : PortState) (env : NameEnv) (dirfd : Int) (path : Option Text) (flag : ℕ) :
    Asking :=
  if hasFlag flag atEmptyPath ∧ path = some [] then w.doFstat env dirfd
  else if w.okmNullName dirfd path then .answers (.stat nullKstat)
  else w.resolving dirfd path fun a => .passing a <|
    match env.info a (!hasFlag flag atSymlinkNofollow) with
    | .error e => .fails (okmErrno e)
    | .ok info =>
      if info.kind = .absent then .fails .enoent else .answers (.stat (fillKstat info))

/-- `SYS_faccessat`, `SYS_access`. -/
def faccessat (w : PortState) (env : NameEnv) (dirfd : Int) (path : Option Text) (mode : ℕ) :
    Asking :=
  if w.okmNullName dirfd path then if hasFlag mode xOk then .fails .eacces else .answers .done
  else w.resolving dirfd path fun a => .passing a <|
    match env.info a true with
    | .error e => .fails (okmErrno e)
    | .ok info =>
      if info.kind = .absent then .fails .enoent
      else if hasFlag mode wOk ∧ info.writable = false then .fails .eacces
      -- an enquiry that does not answer is taken for a yes
      else if hasFlag mode xOk ∧ info.kind ≠ .directory ∧ info.executable = some false then
        .fails .eacces
      else .answers .done

def doReadlink (w : PortState) (env : NameEnv) (dirfd : Int) (path : Option Text) (cap : ℕ) :
    Asking :=
  if w.okmNullName dirfd path then .fails .einval
  else w.resolving dirfd path fun a => .passing a <|
    match env.info a false with
    | .error e => .fails (okmErrno e)
    | .ok info =>
      if info.kind = .absent then .fails .enoent
      else if info.kind ≠ .link then .fails .einval
      else .passing a <|
        match env.linkRead a with
        | .error e => .fails (okmErrno e)
        | .ok n => .answers (.count (min n cap))

def doChmod (w : PortState) (env : NameEnv) (dirfd : Int) (path : Option Text) (mode : ℕ) :
    Asking :=
  w.resolving dirfd path fun a => .passing a <|
    match env.info a true with
    | .error e => .fails (okmErrno e)
    | .ok info =>
      let current := permissions info
      let requested := mode &&& 0o7777
      let none_ := otherFlags current 0o111
      if info.kind = .absent then .fails .enoent
      else if requested = current then .answers .done
      else if info.kind = .directory then .fails .enosys
      else if requested = none_ then .passing a (.ofKal (env.setExecutableAt a false))
      else if requested = none_ ||| ((current &&& 0o444) >>> 2) then
        .passing a (.ofKal (env.setExecutableAt a true))
      else .fails .enosys

/-- `SYS_truncate`. -/
def truncateName (w : PortState) (env : NameEnv) (path : Option Text) (length : ℕ) : Asking :=
  w.resolving atFdcwd path fun a => .passing a <|
    match env.openFile a ⟨true, true, false, false, false, false⟩ with
    | .error e => .fails (okmErrno e)
    | .ok f => .ofKal (env.truncate f length)

/-- The time that is to be set, in nanoseconds. -/
def whenOf (env : NameEnv) : Option (Int × Int) → ℕ
  | none => env.wall
  | some (sec, nsec) =>
    if nsec = utimeNow then env.wall else ((sec * 1000000000 + nsec) % 2 ^ 64).toNat

/-- `SYS_utimensat`; of the two times only that of the modification is read. -/
def utimensat (w : PortState) (env : NameEnv) (dirfd : Int) (path : Option Text)
    (times : Option (Int × Int)) : Asking :=
  if times.any fun t => t.2 = utimeOmit then .answers .done
  else
    let when_ := whenOf env times
    match path with
    | none =>
      match w.okmDescOf dirfd with
      | none => .fails .ebadf
      | some d =>
        if (w.desc d).kind ≠ .file then .fails .ebadf
        else .ofKal (env.setModified (w.desc d).file when_)
    | some path =>
      w.resolving dirfd (some path) fun a => .passing a <|
        let kind := env.info a true
        match kind with
        | .error e =>
          if e ≠ .notSupported then .fails (okmErrno e) else setTime env a when_ true
        | .ok info =>
          if info.kind = .absent then .fails .enoent
          else setTime env a when_ (info.kind ≠ .directory)
where
  /-- By name, and through an open file where that operation is absent. -/
  setTime (env : NameEnv) (a : At) (when_ : ℕ) (write : Bool) : Asking :=
    .passing a <|
      if env.setModifiedAt a when_ = some .notSupported then
        .passing a <|
          match env.openFile a ⟨true, write, false, false, false, false⟩ with
          | .error e => .fails (okmErrno e)
          | .ok f => .ofKal (env.setModified f when_)
      else .ofKal (env.setModifiedAt a when_)

/-- `SYS_mkdirat`, `SYS_mkdir`. -/
def mkdirat (w : PortState) (env : NameEnv) (dirfd : Int) (path : Option Text) : Asking :=
  w.resolving dirfd path fun a => .passing a (.ofKal (env.mkdir a))

/-- `SYS_unlinkat`, `SYS_unlink`, `SYS_rmdir`: one operation removes either. -/
def unlinkat (w : PortState) (env : NameEnv) (dirfd : Int) (path : Option Text) : Asking :=
  w.resolving dirfd path fun a => .passing a (.ofKal (env.remove a))

/-- `SYS_renameat2`, `SYS_renameat`, `SYS_rename`. -/
def renameat2 (w : PortState) (env : NameEnv) (fromDir : Int) (from_ : Option Text) (toDir : Int)
    (to_ : Option Text) (flags : ℕ) : Asking :=
  if otherFlags flags renameNoreplace ≠ 0 then .fails .einval
  else w.resolving fromDir from_ fun a => w.resolving toDir to_ fun b => .passing a <| .passing b <|
    if hasFlag flags renameNoreplace then
      if env.renameNoReplace a b = some .notSupported then .fails .einval
      else .ofKal (env.renameNoReplace a b)
    else .ofKal (env.rename a b)

/-- The content of a link is not a name that is resolved. -/
def doSymlink (w : PortState) (env : NameEnv) (target : Option Text) (dirfd : Int)
    (path : Option Text) : Asking :=
  match target, path with
  | some target, some path =>
    w.resolving dirfd (some path) fun a => .passing a (.ofKal (env.linkCreate a target))
  | _, _ => .fails .efault

/-- The names that `openat` passes on. -/
def openatPasses (w : PortState) (env : Env) (dirfd : Int) (path : Option Text) (flags : ℕ) :
    List At :=
  if w.okmNullName dirfd path then []
  else match w.okmResolve dirfd path false with
    | .error _ => []
    | .ok a =>
      -- the name is asked about, and opened as a directory or as a file
      (if hasFlag flags oNofollow then [a] else []) ++
        if hasFlag flags oNofollow && env.isLink then []
        else if hasFlag flags oDirectory then [a]
        else if env.openFile = .error .isDirectory then [a, a]
        else [a]

/-- A name that is resolved is passed on. -/
def resolvedName (w : PortState) (dirfd : Int) (path : Option Text) : List At :=
  (w.okmResolve dirfd path false).toOption.toList

end PortState

/-- The names that a file action passes on. -/
def Spawn.actPasses (w : PortState) (s : Spawn) : FileAction → List At
  | .openFile fd path _ =>
    match position fd with
    | none => []
    | some _ =>
      if w.okmNullName atFdcwd (some path) then []
      else if s.opened.length ≥ okmSpawnMaxOpen then []
      else w.resolvedName atFdcwd (some path)
  | .chdir path => w.resolvedName atFdcwd (some path)
  | _ => []

/-- The state that file actions which were not refused left. -/
abbrev Spawn.Going := { s : Spawn // s.refused = none }

/-- A call that takes a name. A file action of a spawn is the `n`-th, in the state that those before
it left. -/
inductive NameCall where
  | openat (dirfd : Int) (path : Option Text) (flags : ℕ)
  | fstatat (dirfd : Int) (path : Option Text) (flag : ℕ)
  | faccessat (dirfd : Int) (path : Option Text) (mode : ℕ)
  | readlinkat (dirfd : Int) (path : Option Text) (cap : ℕ)
  | fchmodat (dirfd : Int) (path : Option Text) (mode : ℕ)
  | truncate (path : Option Text) (length : ℕ)
  | utimensat (dirfd : Int) (path : Option Text) (times : Option (Int × Int))
  | unlinkat (dirfd : Int) (path : Option Text) (rmdir : Bool)
  | mkdirat (dirfd : Int) (path : Option Text)
  | renameat2 (fromDir : Int) (from_ : Option Text) (toDir : Int) (to_ : Option Text) (flags : ℕ)
  | symlinkat (target : Option Text) (dirfd : Int) (path : Option Text)
  | chdir (path : Option Text)
  | spawnOpen (n : ℕ) (s : Spawn.Going) (fd : Int) (path : Text) (oflag : ℕ)
  | spawnChdir (n : ℕ) (s : Spawn.Going) (path : Text)

namespace NameCall

/-- The names of a call, each with the directory it is relative to. The content of a link is
none. -/
def names : NameCall → List (Int × Option Text)
  | openat dirfd path _ | fstatat dirfd path _ | faccessat dirfd path _ | readlinkat dirfd path _
  | fchmodat dirfd path _ | utimensat dirfd path _ | unlinkat dirfd path _ | mkdirat dirfd path
  | symlinkat _ dirfd path => [(dirfd, path)]
  | truncate path _ | chdir path => [(atFdcwd, path)]
  | renameat2 fromDir from_ toDir to_ _ => [(fromDir, from_), (toDir, to_)]
  | spawnOpen _ _ _ path _ | spawnChdir _ _ path => [(atFdcwd, some path)]

/-- What a file action leaves at a position, or the reason it was refused. -/
def acted (s : Spawn) (pos : Option (Fin 3)) : Except Errno NameAnswer :=
  match s.refused with
  | some e => .error e
  | none => .ok (pos.elim .done fun pos => .position (s.nullAt pos))

/-- The call. -/
def run (me : Context) (env : NameEnv) (w : PortState) : NameCall → Asking
  | openat dirfd path flags =>
    let o := w.doOpenat me env.call dirfd path flags
    ⟨o.result.map fun fd : ℕ => .descriptor (o.port.isNull fd),
      w.openatPasses env.call dirfd path flags⟩
  | fstatat dirfd path flag => w.doFstatat env dirfd path flag
  | faccessat dirfd path mode => w.faccessat env dirfd path mode
  | readlinkat dirfd path cap => w.doReadlink env dirfd path cap
  | fchmodat dirfd path mode => w.doChmod env dirfd path mode
  | truncate path length => w.truncateName env path length
  | utimensat dirfd path times => w.utimensat env dirfd path times
  | unlinkat dirfd path _ => w.unlinkat env dirfd path
  | mkdirat dirfd path => w.mkdirat env dirfd path
  | renameat2 fromDir from_ toDir to_ flags => w.renameat2 env fromDir from_ toDir to_ flags
  | symlinkat target dirfd path => w.doSymlink env target dirfd path
  | chdir path =>
    ⟨(w.okmChdir env.call atFdcwd path).result.map fun _ => .done, w.resolvedName atFdcwd path⟩
  | spawnOpen n s fd path oflag =>
    ⟨acted (s.val.act w env.spawn n (.openFile fd path oflag)) (position fd),
      s.val.actPasses w (.openFile fd path oflag)⟩
  | spawnChdir n s path =>
    ⟨acted (s.val.act w env.spawn n (.chdir path)) none, s.val.actPasses w (.chdir path)⟩

end NameCall

/-! ## Answering for the device -/

/-- An answer that denies neither that the node exists nor what it is. -/
def OfNode (r : Except Errno NameAnswer) : Prop :=
  r ≠ .error .enoent ∧ r ≠ .error .enotdir ∧ r ≠ .error .eisdir ∧ r ≠ .error .eloop

/-- The open flags that no existing node but a directory can be opened with, and what they are
answered. -/
def openRefusal (flags : ℕ) : Option Errno :=
  if hasFlag flags oDirectory then some .enotdir
  else if flags &&& (oCreat ||| oExcl) = oCreat ||| oExcl then some .eexist
  else none

namespace NameCall

/-- One of the call's names is the null device's. -/
def HasNull (w : PortState) (c : NameCall) : Prop :=
  ∃ n ∈ c.names, w.okmNullName n.1 n.2 = true

/-- A name of the call's that is not the null device's does not resolve, for this reason. -/
def Unresolved (w : PortState) (c : NameCall) (e : Errno) : Prop :=
  ∃ n ∈ c.names, w.okmNullName n.1 n.2 = false ∧ w.okmResolve n.1 n.2 false = .error e

/-- **What a call is answered for a character device** that is neither a directory nor a link, whose
name is one of the call's. -/
def DeviceAnswer (w : PortState) (c : NameCall) (r : Except Errno NameAnswer) : Prop :=
  match c with
  | openat _ _ flags =>
    match openRefusal flags with
    | some e => r = .error e
    | none => r = .ok (.descriptor true) ∨ r = .error .emfile ∨ r = .error .enfile
  | fstatat .. => ∃ st, r = .ok (.stat st) ∧ st.isCharDevice
  | faccessat _ _ mode => r = if hasFlag mode xOk then .error .eacces else .ok .done
  | readlinkat .. => r = .error .einval
  | fchmodat .. | truncate .. | utimensat .. | unlinkat _ _ false => OfNode r
  | unlinkat _ _ true => r = .error .enotdir
  | mkdirat .. => r = .error .eexist
  | renameat2 _ _ _ _ flags =>
    if otherFlags flags renameNoreplace ≠ 0 then r = .error .einval
    -- what is wrong with the other name is reported
    else (∃ e, c.Unresolved w e ∧ r = .error e) ∨ OfNode r
  | symlinkat target _ _ => r = .error (if target = none then .efault else .eexist)
  | chdir _ => r = .error .enotdir
  | spawnOpen _ _ fd _ oflag =>
    match position fd, openRefusal oflag with
    | none, _ => r = .error .enosys
    | some _, some e => r = .error e
    | some _, none => r = .ok (.position true)
  | spawnChdir .. => r = .error .enotdir

/-- A name of the null device is passed to `openkal.fs`. -/
def PassesNull (w : PortState) (c : NameCall) (r : Asking) : Prop :=
  ∃ a ∈ r.passed, ∃ n ∈ c.names, w.okmNullName n.1 n.2 = true ∧ w.okmResolve n.1 n.2 false = .ok a

end NameCall

/-- **A call answers for the null device**: as for a character device, and without passing its name
to `openkal.fs`. -/
structure AsDevice (w : PortState) (c : NameCall) (r : Asking) : Prop where
  answer : c.DeviceAnswer w r.result
  kept : ¬c.PassesNull w r

/-- **The calls that answer for the null device.** -/
def NameCall.Recognises (w : PortState) : NameCall → Prop
  | .openat .. | .fstatat .. | .faccessat .. | .readlinkat .. => True
  | .utimensat _ _ times => times.any (fun t => t.2 = utimeOmit) = true
  | .renameat2 fromDir from_ toDir to_ flags =>
    otherFlags flags renameNoreplace ≠ 0 ∨
      (w.okmNullName fromDir from_ = false ∧ ∃ e, w.okmResolve fromDir from_ false = .error e) ∨
      (w.okmNullName toDir to_ = false ∧ ∃ e, w.okmResolve toDir to_ false = .error e ∧
        (e = .enoent ∨ ∃ a, w.okmResolve fromDir from_ false = .ok a))
  | .symlinkat target _ _ => target = none
  | .spawnOpen _ _ fd _ oflag => position fd = none ∨ openRefusal oflag = none
  | .fchmodat .. | .truncate .. | .unlinkat .. | .mkdirat .. | .chdir .. | .spawnChdir .. => False

/-! ## What a name of the device resolves to -/

namespace PortState

theorem matchPreopen_error_or_ok (w : PortState) (abs : Text) (n : ℕ) :
    w.matchPreopen abs n = .error .enoent ∨ ∃ a, w.matchPreopen abs n = .ok a := by
  unfold matchPreopen
  cases bestPreopen abs w.pre none with
  | none => exact Or.inl rfl
  | some p => exact Or.inr ⟨_, rfl⟩

/-- Every name of the null device resolves to what is found for `/dev/null`. -/
theorem okmResolve_nullName {w : PortState} {dirfd : Int} {path : Option Text}
    (h : w.okmNullName dirfd path = true) :
    w.okmResolve dirfd path false = w.matchPreopen nullDevice 0 := by
  cases path with
  | none => cases h
  | some path =>
    obtain ⟨hne, habs⟩ := okmNullName_iff.mp h
    unfold okmAbsolute at habs
    unfold okmResolve
    dsimp only at habs ⊢
    rw [if_neg (fun hcon => hne hcon.1)]
    by_cases hnormal : alreadyNormal path ≠ 0
    · -- taken as it stands, it is the device's name itself
      obtain ⟨hn, hlt, cs, hcs, hpath⟩ := alreadyNormal_pos hnormal
      have hroot : rootLength path ≠ 0 := by simp [rootLength, hpath]
      rw [if_pos hroot, join_nil_of_stack hcs hpath hlt] at habs
      have hself : path = nullDevice := by
        split_ifs at habs
        exact Except.ok.inj habs
      rw [if_pos hnormal, hn, matchPreopen_length, hself]
    · rw [if_neg hnormal]
      by_cases hroot : rootLength path ≠ 0
      · rw [if_pos hroot] at habs ⊢
        rw [habs]
        rfl
      · rw [if_neg hroot] at habs ⊢
        by_cases hcwd : dirfd = atFdcwd
        · rw [if_pos hcwd] at habs ⊢
          rw [habs]
          rfl
        · rw [if_neg hcwd] at habs ⊢
          cases hd : w.okmDescOf dirfd with
          | none => simp [hd] at habs
          | some d =>
            simp only [hd] at habs ⊢
            by_cases hkind : (w.desc d).kind ≠ .dir
            · simp [hkind] at habs
            · rw [if_neg hkind] at habs ⊢
              cases hname : w.dirName (w.desc d) with
              | none => simp [hname] at habs
              | some name =>
                simp only [hname] at habs ⊢
                rw [habs]
                rfl

/-- **A call that does not ask** for the null device answers that there is no such node, or passes
the device's name on. -/
theorem resolving_nullName {w : PortState} {dirfd : Int} {path : Option Text}
    (h : w.okmNullName dirfd path = true) {k : At → Asking} (hk : ∀ a, a ∈ (k a).passed) :
    (w.resolving dirfd path k).result = .error .enoent ∨
      ∃ a ∈ (w.resolving dirfd path k).passed, w.okmResolve dirfd path false = .ok a := by
  unfold resolving
  rcases w.matchPreopen_error_or_ok nullDevice 0 with hnone | ⟨a, hsome⟩
  · rw [okmResolve_nullName h, hnone]
    exact Or.inl rfl
  · rw [okmResolve_nullName h, hsome]
    exact Or.inr ⟨a, hk a, rfl⟩

/-- A name that is passed on as it is resolved. -/
theorem resolvedName_nullName {w : PortState} {dirfd : Int} {path : Option Text}
    (h : w.okmNullName dirfd path = true) :
    w.okmResolve dirfd path false = .error .enoent ∨
      ∃ a ∈ w.resolvedName dirfd path, w.okmResolve dirfd path false = .ok a := by
  unfold resolvedName
  rcases w.matchPreopen_error_or_ok nullDevice 0 with hnone | ⟨a, hsome⟩
  · exact Or.inl (by rw [okmResolve_nullName h, hnone])
  · rw [okmResolve_nullName h, hsome]
    exact Or.inr ⟨a, by simp [Except.toOption], rfl⟩

/-- A descriptor that is made is of the kind it was made for. -/
theorem bindNew_kind (w : PortState) (me : Context) (kind : Kind) (stream file dir : Handle)
    (flags : ℕ) :
    (w.bindNew me kind stream file dir flags).2 = .error .emfile ∨
      (w.bindNew me kind stream file dir flags).2 = .error .enfile ∨
      ∃ f d, (w.bindNew me kind stream file dir flags).2 = .ok f ∧
        (w.bindNew me kind stream file dir flags).1.okmDescOf f.val = some d ∧
        ((w.bindNew me kind stream file dir flags).1.desc d).kind = kind := by
  unfold bindNew
  rcases okmFdAlloc_cases w with ⟨hnone, -⟩ | ⟨f, hf, hfree, -⟩
  · rw [hnone]
    exact Or.inl rfl
  · rw [hf]
    dsimp only
    unfold okmFdBind
    rw [fdIndex_val]
    dsimp only
    cases hd : w.descAlloc with
    | none => exact Or.inr (Or.inl rfl)
    | some d =>
      -- the number was free, so that nothing is released
      have hvacant : (w.bindDesc d ((w.desc d).bind kind stream file dir flags)).vacate me f =
          w.bindDesc d ((w.desc d).bind kind stream file dir flags) := by
        have hfd : (w.bindDesc d ((w.desc d).bind kind stream file dir flags)).fd f = w.fd f := rfl
        rw [vacate, hfd, hfree]
      refine Or.inr (Or.inr ⟨f, d, rfl, ?_⟩)
      dsimp only
      rw [hvacant]
      refine ⟨?_, ?_⟩
      · rw [okmDescOf, fdIndex_val, Option.bind_some, setFd]
        dsimp only
        rw [Function.update_self]
      · have hdesc : (w.bindDesc d ((w.desc d).bind kind stream file dir flags)).desc d =
            (w.desc d).bind kind stream file dir flags := Function.update_self ..
        rw [setFd, hdesc]
        rfl

end PortState

/-! ## The calls that ask -/

namespace NameCall

variable {me : Context} {env : NameEnv} {w : PortState} {dirfd : Int} {path : Option Text}

/-- A call that passes no name on passes no name of the null device on. -/
theorem not_passesNull {c : NameCall} {r : Asking} (h : r.passed = []) : ¬c.PassesNull w r := by
  rintro ⟨a, ha, -⟩
  rw [h] at ha
  cases ha

theorem asDevice_openat (h : w.okmNullName dirfd path = true) (flags : ℕ) :
    AsDevice w (openat dirfd path flags) ((openat dirfd path flags).run me env w) := by
  refine ⟨?_, not_passesNull (by simp only [run, openatPasses, h, if_true])⟩
  unfold run DeviceAnswer openRefusal doOpenat
  simp only [h, if_true]
  by_cases hdir : hasFlag flags oDirectory = true
  · simp only [hdir, if_true]
    rfl
  · rw [if_neg hdir, if_neg hdir]
    by_cases hexcl : flags &&& (oCreat ||| oExcl) = oCreat ||| oExcl
    · rw [if_pos hexcl, if_pos hexcl]
      rfl
    · rw [if_neg hexcl, if_neg hexcl]
      -- a descriptor that is had is the device's, also after what was let go is closed
      unfold finishPlain
      dsimp only
      rcases w.bindNew_kind me .null 0 0 0 flags with he | he | ⟨f, d, hf, hd, hkind⟩
      · rw [he]
        exact Or.inr (Or.inl rfl)
      · rw [he]
        exact Or.inr (Or.inr rfl)
      · refine Or.inl ?_
        have hnull : ((w.bindNew me .null 0 0 0 flags).1.leave me).isNull f.val = true := by
          have hdesc : ((w.bindNew me .null 0 0 0 flags).1.leave me).okmDescOf f.val = some d := by
            unfold okmDescOf at hd ⊢
            rw [leave_fd, hd]
          rw [isNull, hdesc, Option.any_some, leave_desc]
          exact decide_eq_true hkind
        rw [hf]
        simp only [Except.map, hnull]

theorem asDevice_fstatat (h : w.okmNullName dirfd path = true) (flag : ℕ) :
    AsDevice w (fstatat dirfd path flag) ((fstatat dirfd path flag).run me env w) := by
  have hne : path ≠ some [] := by
    rintro rfl
    cases h
  have hrun : (fstatat dirfd path flag).run me env w = .answers (.stat nullKstat) := by
    simp only [run, doFstatat, hne, and_false, if_false, h, if_true]
  have hchar : nullKstat.mode &&& sIfmt = sIfchr := by decide
  rw [hrun]
  exact ⟨⟨nullKstat, rfl, hchar⟩, not_passesNull rfl⟩

theorem asDevice_faccessat (h : w.okmNullName dirfd path = true) (mode : ℕ) :
    AsDevice w (faccessat dirfd path mode) ((faccessat dirfd path mode).run me env w) := by
  have hrun : (faccessat dirfd path mode).run me env w =
      if hasFlag mode xOk then .fails .eacces else .answers .done := by
    simp only [run, PortState.faccessat, h, if_true]
  rw [hrun]
  by_cases hx : hasFlag mode xOk = true
  · rw [if_pos hx]
    exact ⟨(if_pos hx).symm, not_passesNull rfl⟩
  · rw [if_neg hx]
    exact ⟨(if_neg hx).symm, not_passesNull rfl⟩

theorem asDevice_readlinkat (h : w.okmNullName dirfd path = true) (cap : ℕ) :
    AsDevice w (readlinkat dirfd path cap) ((readlinkat dirfd path cap).run me env w) := by
  have hrun : (readlinkat dirfd path cap).run me env w = .fails .einval := by
    simp only [run, doReadlink, h, if_true]
  rw [hrun]
  exact ⟨rfl, not_passesNull rfl⟩

/-- The file action that opens recognises the device, but does not look at the flags. -/
theorem asDevice_spawnOpen_iff {n : ℕ} {s : Spawn.Going} {fd : Int} {path : Text} {oflag : ℕ}
    (h : w.okmNullName atFdcwd (some path) = true) :
    AsDevice w (spawnOpen n s fd path oflag) ((spawnOpen n s fd path oflag).run me env w) ↔
      position fd = none ∨ openRefusal oflag = none := by
  -- the file action asks, and passes no name on
  have hpassed : ((spawnOpen n s fd path oflag).run me env w).passed = [] := by
    unfold run Spawn.actPasses
    dsimp only
    cases position fd with
    | none => rfl
    | some pos => exact if_pos h
  cases hpos : position fd with
  | none =>
    have hresult : ((spawnOpen n s fd path oflag).run me env w).result = .error .enosys := by
      simp only [run, Spawn.act, hpos]
      rfl
    refine iff_of_true ⟨?_, not_passesNull hpassed⟩ (Or.inl rfl)
    simp only [DeviceAnswer, hpos, hresult]
  | some pos =>
    have hresult : ((spawnOpen n s fd path oflag).run me env w).result = .ok (.position true) := by
      simp only [run, Spawn.act, hpos, h, if_true, acted, Spawn.placeNull, s.property,
        Option.elim_some, Function.update_self]
    cases hrefusal : openRefusal oflag with
    | none =>
      refine iff_of_true ⟨?_, not_passesNull hpassed⟩ (Or.inr rfl)
      simp only [DeviceAnswer, hpos, hrefusal, hresult]
    -- the device would refuse the flags, and the position is given all the same
    | some e =>
      refine iff_of_false (fun hcon => ?_) (by simp)
      have hanswer := hcon.answer
      simp only [DeviceAnswer, hpos, hrefusal, hresult] at hanswer
      cases hanswer

/-! ## The calls that do not -/

/-- A call that answers that there is no such node, or passes a name of the device on. -/
theorem not_asDevice {c : NameCall} {r : Asking} (hname : (dirfd, path) ∈ c.names)
    (hnull : w.okmNullName dirfd path = true)
    (henoent : ¬c.DeviceAnswer w (.error .enoent))
    (h : r.result = .error .enoent ∨ ∃ a ∈ r.passed, w.okmResolve dirfd path false = .ok a) :
    ¬AsDevice w c r := by
  rintro ⟨hanswer, hkept⟩
  rcases h with h | ⟨a, ha, hres⟩
  · rw [h] at hanswer
    exact henoent hanswer
  · exact hkept ⟨a, ha, _, hname, hnull, hres⟩

theorem not_ofNode_enoent : ¬OfNode (.error .enoent) := fun h => h.1 rfl

theorem not_asDevice_fchmodat (h : w.okmNullName dirfd path = true) (mode : ℕ) :
    ¬AsDevice w (fchmodat dirfd path mode) ((fchmodat dirfd path mode).run me env w) :=
  not_asDevice (List.mem_singleton_self _) h not_ofNode_enoent
    (resolving_nullName h fun _ => List.mem_cons_self ..)

theorem not_asDevice_truncate (h : w.okmNullName atFdcwd path = true) (length : ℕ) :
    ¬AsDevice w (truncate path length) ((truncate path length).run me env w) :=
  not_asDevice (List.mem_singleton_self _) h not_ofNode_enoent
    (resolving_nullName h fun _ => List.mem_cons_self ..)

theorem not_asDevice_unlinkat (h : w.okmNullName dirfd path = true) (rmdir : Bool) :
    ¬AsDevice w (unlinkat dirfd path rmdir) ((unlinkat dirfd path rmdir).run me env w) := by
  refine not_asDevice (List.mem_singleton_self _) h ?_
    (resolving_nullName h fun _ => List.mem_cons_self ..)
  cases rmdir with
  | false => exact not_ofNode_enoent
  | true => exact nofun

theorem not_asDevice_mkdirat (h : w.okmNullName dirfd path = true) :
    ¬AsDevice w (mkdirat dirfd path) ((mkdirat dirfd path).run me env w) :=
  not_asDevice (List.mem_singleton_self _) h nofun
    (resolving_nullName h fun _ => List.mem_cons_self ..)

theorem not_asDevice_chdir (h : w.okmNullName atFdcwd path = true) :
    ¬AsDevice w (chdir path) ((chdir path).run me env w) := by
  refine not_asDevice (List.mem_singleton_self _) h nofun ?_
  rcases resolvedName_nullName h with hnone | hsome
  · left
    cases path with
    | none => cases h
    | some path =>
      unfold run okmChdir
      simp only [hnone]
      rfl
  · exact Or.inr hsome

theorem not_asDevice_spawnChdir {n : ℕ} {s : Spawn.Going} {path : Text}
    (h : w.okmNullName atFdcwd (some path) = true) :
    ¬AsDevice w (spawnChdir n s path) ((spawnChdir n s path).run me env w) := by
  refine not_asDevice (List.mem_singleton_self _) h nofun ?_
  rcases resolvedName_nullName h with hnone | hsome
  · left
    simp only [run, Spawn.act, hnone]
    rfl
  · exact Or.inr hsome

/-- A time that is left alone is left alone before the name is looked at. -/
theorem asDevice_utimensat_iff (h : w.okmNullName dirfd path = true)
    (times : Option (Int × Int)) :
    AsDevice w (utimensat dirfd path times) ((utimensat dirfd path times).run me env w) ↔
      times.any (fun t => t.2 = utimeOmit) = true := by
  by_cases homit : times.any (fun t => t.2 = utimeOmit) = true
  · have hrun : (utimensat dirfd path times).run me env w = .answers .done := by
      simp only [run, PortState.utimensat, homit, if_true]
    rw [hrun]
    exact iff_of_true ⟨⟨nofun, nofun, nofun, nofun⟩, not_passesNull rfl⟩ homit
  · refine iff_of_false ?_ homit
    cases path with
    | none => cases h
    | some path =>
      refine not_asDevice (List.mem_singleton_self _) h not_ofNode_enoent ?_
      simp only [run, PortState.utimensat, homit]
      exact resolving_nullName h fun _ => List.mem_cons_self ..

theorem asDevice_symlinkat_iff (h : w.okmNullName dirfd path = true) (target : Option Text) :
    AsDevice w (symlinkat target dirfd path) ((symlinkat target dirfd path).run me env w) ↔
      target = none := by
  cases target with
  | none => exact iff_of_true ⟨rfl, not_passesNull rfl⟩ rfl
  | some target =>
    refine iff_of_false ?_ (Option.some_ne_none _)
    cases path with
    | none => cases h
    | some path =>
      refine not_asDevice (List.mem_singleton_self _) h ?_
        (resolving_nullName h fun _ => List.mem_cons_self ..)
      simp [DeviceAnswer]

/-- A rename answers for the device where the flags are refused, or where it is the other name that
does not resolve. -/
theorem asDevice_renameat2_iff {fromDir toDir : Int} {from_ to_ : Option Text} {flags : ℕ}
    (h : (renameat2 fromDir from_ toDir to_ flags).HasNull w) :
    AsDevice w (renameat2 fromDir from_ toDir to_ flags)
        ((renameat2 fromDir from_ toDir to_ flags).run me env w) ↔
      (renameat2 fromDir from_ toDir to_ flags).Recognises w := by
  unfold Recognises
  by_cases hflags : otherFlags flags renameNoreplace ≠ 0
  · have hrun : (renameat2 fromDir from_ toDir to_ flags).run me env w = .fails .einval := by
      simp only [run, PortState.renameat2, hflags, ne_eq, not_false_eq_true, if_true]
    rw [hrun]
    refine iff_of_true ⟨?_, not_passesNull rfl⟩ (Or.inl hflags)
    rw [DeviceAnswer, if_pos hflags]
    rfl
  have hnames : ∀ n, n ∈ (renameat2 fromDir from_ toDir to_ flags).names ↔
      n = (fromDir, from_) ∨ n = (toDir, to_) := by
    intro n
    rw [names, List.mem_cons, List.mem_singleton]
  -- a null name that does not resolve is not there
  have habsent : ∀ {dirfd path e}, w.okmNullName dirfd path = true →
      w.okmResolve dirfd path false = .error e → e = .enoent := by
    intro dirfd path e hnull hres
    rw [okmResolve_nullName hnull] at hres
    rcases w.matchPreopen_error_or_ok nullDevice 0 with hnone | ⟨a, hsome⟩
    · rw [hnone] at hres
      cases hres
      rfl
    · rw [hsome] at hres
      cases hres
  have hfails : ∀ e, AsDevice w (renameat2 fromDir from_ toDir to_ flags) (.fails e) ↔
      (renameat2 fromDir from_ toDir to_ flags).Unresolved w e ∨ OfNode (.error e) := by
    intro e
    constructor
    · rintro ⟨hanswer, -⟩
      rw [DeviceAnswer, if_neg hflags] at hanswer
      rcases hanswer with ⟨e', hother, hsame⟩ | hnode
      · cases hsame
        exact Or.inl hother
      · exact Or.inr hnode
    · intro hanswer
      refine ⟨?_, not_passesNull rfl⟩
      rw [DeviceAnswer, if_neg hflags]
      exact hanswer.imp (fun hother => ⟨e, hother, rfl⟩) id
  unfold run PortState.renameat2 resolving
  dsimp only
  rw [if_neg hflags]
  cases hfrom : w.okmResolve fromDir from_ false with
  | error e =>
    rw [hfails]
    cases hnull : w.okmNullName fromDir from_ with
    | false =>
      refine iff_of_true (Or.inl ⟨_, (hnames _).mpr (Or.inl rfl), hnull, hfrom⟩) ?_
      exact Or.inr (Or.inl ⟨rfl, e, rfl⟩)
    | true =>
      -- the device's own name is not there: right only of a target that is not there either
      obtain rfl := habsent hnull hfrom
      constructor
      · rintro (⟨n, hn, hother, hres⟩ | hnode)
        · rcases (hnames n).mp hn with rfl | rfl
          · rw [hnull] at hother
            cases hother
          · exact Or.inr (Or.inr ⟨hother, .enoent, hres, Or.inl rfl⟩)
        · exact absurd hnode not_ofNode_enoent
      · rintro (hbad | ⟨hfalse, -⟩ | ⟨hother, e, hres, rfl | ⟨a, ha⟩⟩)
        · exact absurd hbad hflags
        · cases hfalse
        · exact Or.inl ⟨_, (hnames _).mpr (Or.inr rfl), hother, hres⟩
        · cases ha
  | ok a =>
    cases hto : w.okmResolve toDir to_ false with
    | error e =>
      rw [hfails]
      cases hnull : w.okmNullName toDir to_ with
      | false =>
        refine iff_of_true (Or.inl ⟨_, (hnames _).mpr (Or.inr rfl), hnull, hto⟩) ?_
        exact Or.inr (Or.inr ⟨rfl, e, rfl, Or.inr ⟨a, rfl⟩⟩)
      | true =>
        obtain rfl := habsent hnull hto
        refine iff_of_false ?_ (by simp [hflags])
        rintro (⟨n, hn, hother, hres⟩ | hnode)
        · rcases (hnames n).mp hn with rfl | rfl
          · rw [hfrom] at hres
            cases hres
          · rw [hnull] at hother
            cases hother
        · exact not_ofNode_enoent hnode
    | ok b =>
      -- both names are passed on, and one of them is the device's
      refine iff_of_false ?_ ?_
      · rintro ⟨-, hkept⟩
        obtain ⟨n, hn, hnull⟩ := h
        rcases (hnames n).mp hn with rfl | rfl
        · exact hkept ⟨a, List.mem_cons_self .., _, hn, hnull, hfrom⟩
        · exact hkept ⟨b, List.mem_cons_of_mem _ (List.mem_cons_self ..), _, hn, hnull, hto⟩
      · simp [hflags]

end NameCall

/-- **When a call answers for the null device**, one of whose names is the device's: exactly the
calls that ask do. -/
theorem asDevice_iff (me : Context) (env : NameEnv) {w : PortState} {c : NameCall}
    (h : c.HasNull w) : AsDevice w c (c.run me env w) ↔ c.Recognises w := by
  have hone : ∀ {dirfd path}, c.names = [(dirfd, path)] → w.okmNullName dirfd path = true := by
    intro dirfd path hnames
    obtain ⟨n, hn, hnull⟩ := h
    rw [hnames, List.mem_singleton] at hn
    rw [hn] at hnull
    exact hnull
  cases c with
  | openat dirfd path flags => exact iff_of_true (NameCall.asDevice_openat (hone rfl) flags) trivial
  | fstatat dirfd path flag => exact iff_of_true (NameCall.asDevice_fstatat (hone rfl) flag) trivial
  | faccessat dirfd path mode =>
    exact iff_of_true (NameCall.asDevice_faccessat (hone rfl) mode) trivial
  | readlinkat dirfd path cap =>
    exact iff_of_true (NameCall.asDevice_readlinkat (hone rfl) cap) trivial
  | fchmodat dirfd path mode =>
    exact iff_of_false (NameCall.not_asDevice_fchmodat (hone rfl) mode) id
  | truncate path length => exact iff_of_false (NameCall.not_asDevice_truncate (hone rfl) length) id
  | utimensat dirfd path times => exact NameCall.asDevice_utimensat_iff (hone rfl) times
  | unlinkat dirfd path rmdir =>
    exact iff_of_false (NameCall.not_asDevice_unlinkat (hone rfl) rmdir) id
  | mkdirat dirfd path => exact iff_of_false (NameCall.not_asDevice_mkdirat (hone rfl)) id
  | renameat2 fromDir from_ toDir to_ flags => exact NameCall.asDevice_renameat2_iff h
  | symlinkat target dirfd path => exact NameCall.asDevice_symlinkat_iff (hone rfl) target
  | chdir path => exact iff_of_false (NameCall.not_asDevice_chdir (hone rfl)) id
  | spawnOpen n s fd path oflag => exact NameCall.asDevice_spawnOpen_iff (hone rfl)
  | spawnChdir n s path => exact iff_of_false (NameCall.not_asDevice_spawnChdir (hone rfl)) id

/-- An environment whose directories hold nothing, and let anything be made. -/
def NameEnv.bare : NameEnv where
  info := fun _ _ => .ok { kind := .absent, writable := true }
  fileInfo := fun _ => .error .notFound
  linkRead := fun _ => .error .notFound
  linkCreate := fun _ _ => none
  setExecutableAt := fun _ _ => some .notFound
  setModifiedAt := fun _ _ => some .notFound
  openFile := fun _ _ => .error .notFound
  setModified := fun _ _ => some .invalid
  truncate := fun _ _ => some .invalid
  mkdir := fun _ => none
  remove := fun _ => some .notFound
  rename := fun _ _ => some .notFound
  renameNoReplace := fun _ _ => some .notFound
  interactive := fun _ => false
  wall := 0
  call := { Env.granting with openFile := .error .notFound, openDir := .error .notFound }
  spawn :=
    { SpawnEnv.granting with
      openFile := fun _ _ _ _ => .error .notFound
      openDir := fun _ _ _ => .error .notFound }

/-- Another spelling of the device's name. -/
def spelledNull : Text := ['/', 'd', 'e', 'v', '/', '/', '.', '/', 'n', 'u', 'l', 'l']

/-- The device is opened there, by another spelling of its name. -/
theorem asDevice_open_spelled :
    AsDevice (System.start 1 .supplied).port (.openat atFdcwd (some spelledNull) oRdwr)
      (NameCall.run 1 .bare (System.start 1 .supplied).port
        (.openat atFdcwd (some spelledNull) oRdwr)) :=
  (asDevice_iff 1 .bare
    ⟨(atFdcwd, some spelledNull), List.mem_singleton_self _, by decide +kernel⟩).mpr trivial

/-- A directory is made there, under the name of the device. -/
theorem mkdir_makes_null :
    ¬AsDevice (System.start 1 .supplied).port (.mkdirat atFdcwd (some nullDevice))
      (NameCall.run 1 .bare (System.start 1 .supplied).port
        (.mkdirat atFdcwd (some nullDevice))) := by
  intro h
  have hmade : (NameCall.run 1 .bare (System.start 1 .supplied).port
      (.mkdirat atFdcwd (some nullDevice))).result = .ok .done := by decide +kernel
  have hanswer : (NameCall.run 1 .bare (System.start 1 .supplied).port
      (.mkdirat atFdcwd (some nullDevice))).result = .error .eexist := h.answer
  rw [hmade] at hanswer
  cases hanswer

end OpenkalMusl
