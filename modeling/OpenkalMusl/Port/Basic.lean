import Mathlib.Data.Nat.Notation

/-!
# Declarations shared by the port layer

The bounds of the fixed tables, the error values of both sides and the translation between
them, and the open flags said in openkal's vocabulary (`okm.h`, and the first section of
`okm_fd.c`). A C string is the list of its characters before the terminating zero; every
character is one byte. The capacities count bytes, the terminating zero included.

## Main definitions

* `okmMaxFd`, `okmMaxDesc`, `okmMaxSock`, `okmMaxPath`, `okmMaxDirs`, `okmDirPath`: the bounds
* `Errno`, `KalError`, `okmErrno`: error values and their translation
* `okmOpenFlags`: open flags in openkal's vocabulary
-/

namespace OpenkalMusl

/-- A C string, without its terminating zero. -/
abbrev Text := List Char

/-- An openkal handle: an opaque machine word. -/
abbrev Handle := ℕ

/-- The identity openkal gives an execution context. -/
abbrev Context := ℕ

def okmMaxFd : ℕ := 1024
def okmMaxDesc : ℕ := okmMaxFd
def okmMaxSock : ℕ := 128
def okmMaxPath : ℕ := 4096
def okmMaxDirs : ℕ := 64
def okmDirPath : ℕ := 512
def okmSettlingMax : ℕ := 32

/-- The error values a program written for Linux expects. -/
inductive Errno where
  | enoent | e2big | ebadf | eagain | enomem | eacces | efault | eexist | enotdir | eisdir
  | einval | enfile | emfile | enospc | espipe | epipe | enametoolong | enosys | enotempty
  | eloop | eio | enoexec | enotsock | esocktnosupport | eopnotsupp | eafnosupport | enotconn
  | enodev | enxio | edestaddrreq | eisconn | enoprotoopt
  deriving DecidableEq, Repr

/-- The errors of openkal's closed set; `other` is any value this library does not know. -/
inductive KalError where
  | invalid | again | io | noMemory | noSpace | permission | notSupported | closed | notFound
  | exists | notEmpty | isDirectory | notDirectory | notProgram | other
  deriving DecidableEq, Repr

/-- Translation of openkal's errors. -/
def okmErrno : KalError → Errno
  | .invalid => .einval
  | .again => .eagain
  | .io => .eio
  | .noMemory => .enomem
  | .noSpace => .enospc
  | .permission => .eacces
  | .notSupported => .enosys
  | .closed => .epipe
  | .notFound => .enoent
  | .exists => .eexist
  | .notEmpty => .enotempty
  | .isDirectory => .eisdir
  | .notDirectory => .enotdir
  | .notProgram => .enoexec
  | .other => .eio

/-- An error of openkal is known by what it is translated to, unless that is `EIO`. -/
theorem okmErrno_eq_iff {e : KalError} (e' : KalError) (h : okmErrno e' ≠ .eio) :
    okmErrno e = okmErrno e' ↔ e = e' := by
  constructor
  · intro heq
    cases e <;> cases e' <;> first | rfl | exact absurd rfl h | cases heq
  · rintro rfl
    rfl

section OpenFlags

def oAccmode : ℕ := 0o3 ||| 0o10000000
def oRdonly : ℕ := 0o0
def oWronly : ℕ := 0o1
def oRdwr : ℕ := 0o2
def oCreat : ℕ := 0o100
def oExcl : ℕ := 0o200
def oTrunc : ℕ := 0o1000
def oAppend : ℕ := 0o2000
def oNonblock : ℕ := 0o4000
def oDirectory : ℕ := 0o200000
def oNofollow : ℕ := 0o400000
def oCloexec : ℕ := 0o2000000

/-- Whether a flag is set in a word of flags. -/
def hasFlag (flags flag : ℕ) : Bool := flags &&& flag != 0

/-- The flags that are not among `mask`. -/
def otherFlags (flags mask : ℕ) : ℕ := flags - (flags &&& mask)

/-- What `kal_fs_open` is told a file is opened for. -/
structure KalOpen where
  read : Bool
  write : Bool
  create : Bool
  exclusive : Bool
  truncate : Bool
  append : Bool
  deriving DecidableEq, Repr

/-- A program's open flags said in openkal's vocabulary. -/
def okmOpenFlags (flags : ℕ) : KalOpen where
  read := flags &&& oAccmode ≠ oWronly
  write := flags &&& oAccmode ≠ oRdonly
  create := hasFlag flags oCreat
  exclusive := hasFlag flags oExcl
  truncate := hasFlag flags oTrunc
  append := hasFlag flags oAppend

end OpenFlags

/-- The directory descriptor that stands for the working directory. -/
def atFdcwd : Int := -100

end OpenkalMusl
