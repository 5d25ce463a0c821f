import OpenkalMusl.Input.Poll

/-!
# Regular files, and the positions in them

What the environment holds for the descriptions of regular files: the bytes of each file, and for
each description a position, which a transfer of its stream moves by what it transferred and which a
seek sets. A transfer at an offset neither uses nor moves it.

What the environment answers is a parameter: of each transfer, how much of what was asked for it
moves or that it fails, and of each seek, whether it fails. A transfer that fails moves nothing, and
a read of none is the end of the file.

## Main definitions

* `FileBytes`: the bytes of a file
* `FileEnv`, `Files`: the environment's answers, and its state
* `Files.streamRead`, `Files.readAt` and the like: its operations
* `doReadFile`, `doWriteFile`: `do_read` and `do_write` of a file

## Main results

* `FilesHoldNothing.okmPoll`: an enquiry leaves nothing with a file
* `PortState.doRead_file`: `do_read` of a file is `doReadFile`
-/

namespace OpenkalMusl

/-- The bytes of a file. What is beyond its end reads as zero once something is written behind. -/
structure FileBytes where
  size : ℕ
  byte : ℕ → UInt8
  beyond : ∀ i, size ≤ i → byte i = 0

namespace FileBytes

/-- A file of no bytes. -/
def empty : FileBytes := ⟨0, fun _ => 0, fun _ _ => rfl⟩

/-- The bytes from a place on, to the end of the file. -/
def read (f : FileBytes) (p len : ℕ) : List UInt8 :=
  (List.range (min len (f.size - p))).map fun i => f.byte (p + i)

/-- The file with bytes written at a place. -/
def write (f : FileBytes) (p : ℕ) (bytes : List UInt8) : FileBytes where
  size := if bytes = [] then f.size else max f.size (p + bytes.length)
  byte i := if p ≤ i ∧ i < p + bytes.length then bytes[i - p]?.getD 0 else f.byte i
  beyond := by
    intro i hi
    by_cases hnil : bytes = []
    · rw [if_pos hnil] at hi
      subst hnil
      rw [if_neg (by simp)]
      exact f.beyond i hi
    · rw [if_neg hnil] at hi
      have h1 : f.size ≤ i := (Nat.le_max_left _ _).trans hi
      have h2 : p + bytes.length ≤ i := (Nat.le_max_right _ _).trans hi
      rw [if_neg (by omega)]
      exact f.beyond i h1

theorem length_read (f : FileBytes) (p len : ℕ) : (f.read p len).length = min len (f.size - p) := by
  rw [read, List.length_map, List.length_range]

theorem getElem_read (f : FileBytes) (p len i : ℕ) (h : i < (f.read p len).length) :
    (f.read p len)[i] = f.byte (p + i) := by
  simp only [read, List.getElem_map, List.getElem_range]

end FileBytes

/-- What the environment does with a transfer: it moves no more than so many bytes, or it fails. -/
inductive FileAnswer where
  | moves (most : ℕ)
  | fails (e : KalError)
  deriving DecidableEq

/-- The files beneath the descriptions, and what the environment answers. -/
structure FileEnv where
  fileOf : Fin okmMaxDesc → ℕ
  /-- The description was opened with `O_APPEND`. -/
  appends : Fin okmMaxDesc → Bool
  /-- The answers to the transfers, one after another. -/
  answer : ℕ → FileAnswer
  /-- The failures of the seeks, one after another. -/
  seekFails : ℕ → Option KalError
  /-- Whether there are transfers bounded in time. -/
  bounded : Bool

/-- The environment's state: what is in the files, where the descriptions are in them, and how often
it has been asked. -/
structure Files where
  file : ℕ → FileBytes
  pos : Fin okmMaxDesc → ℕ
  transfers : ℕ := 0
  seeks : ℕ := 0

namespace Files

variable (env : FileEnv) (s : Files) (d : Fin okmMaxDesc)

/-- The file beneath a description. -/
def under : FileBytes := s.file (env.fileOf d)

/-- The position of a description is set. -/
def moveTo (p : ℕ) : Files := { s with pos := Function.update s.pos d p }

@[simp] theorem moveTo_self (p : ℕ) : (s.moveTo d p).pos d = p := by
  simp only [moveTo, Function.update_self]

theorem moveTo_of_ne {s : Files} {d e : Fin okmMaxDesc} (h : e ≠ d) (p : ℕ) :
    (s.moveTo d p).pos e = s.pos e := by
  simp only [moveTo, Function.update_of_ne h]

@[simp] theorem moveTo_file (p : ℕ) : (s.moveTo d p).file = s.file := rfl

@[simp] theorem moveTo_transfers (p : ℕ) : (s.moveTo d p).transfers = s.transfers := rfl

/-- `kal_fs_seek` from the current position, by nothing. -/
def seekCur : Files × Except KalError ℕ :=
  ({ s with seeks := s.seeks + 1 },
    match env.seekFails s.seeks with
    | some e => .error e
    | none => .ok (s.pos d))

/-- `kal_fs_seek` from the beginning. -/
def seekSet (off : Int) : Files × Except KalError ℕ :=
  match env.seekFails s.seeks with
  | some e => ({ s with seeks := s.seeks + 1 }, .error e)
  | none =>
    if off < 0 then ({ s with seeks := s.seeks + 1 }, .error .invalid)
    else ({ s with seeks := s.seeks + 1 }.moveTo d off.toNat, .ok off.toNat)

/-- `kal_fs_read_at`. -/
def readAt (off len : ℕ) : Files × Except KalError (List UInt8) :=
  ({ s with transfers := s.transfers + 1 },
    match env.answer s.transfers with
    | .fails e => .error e
    | .moves most => .ok ((s.under env d).read off (min len (most + 1))))

/-- `kal_fs_write_at`. -/
def writeAt (off : ℕ) (bytes : List UInt8) : Files × Except KalError ℕ :=
  match env.answer s.transfers with
  | .fails e => ({ s with transfers := s.transfers + 1 }, .error e)
  | .moves most =>
    ({ s with
        transfers := s.transfers + 1
        file := Function.update s.file (env.fileOf d)
          ((s.under env d).write off (bytes.take most)) },
      .ok (bytes.take most).length)

/-- `kal_stream_read`: what is read at the position, which it moves. -/
def streamRead (len : ℕ) : Files × Except KalError (List UInt8) :=
  let r := s.readAt env d (s.pos d) len
  match r.2 with
  | .error e => (r.1, .error e)
  | .ok got => (r.1.moveTo d (s.pos d + got.length), .ok got)

/-- `kal_stream_write`: what is written at the position, which it moves unless it writes nothing; a
description that appends writes at the end. -/
def streamWrite (bytes : List UInt8) : Files × Except KalError ℕ :=
  let p := if env.appends d then (s.under env d).size else s.pos d
  let r := s.writeAt env d p bytes
  match r.2 with
  | .error e => (r.1, .error e)
  | .ok n => (r.1.moveTo d (if n = 0 then s.pos d else p + n), .ok n)

end Files

/-- `do_read` of a file. -/
def doReadFile (env : FileEnv) (nonblock : Bool) (s : Files) (d : Fin okmMaxDesc) (len : ℕ) :
    Files × Except Errno (List UInt8) :=
  if len = 0 then (s, .ok [])
  else if nonblock && !env.bounded then (s, .error .enosys)
  else
    let r := s.streamRead env d len
    (r.1, r.2.mapError okmErrno)

/-- `do_write` of a file. -/
def doWriteFile (env : FileEnv) (nonblock : Bool) (s : Files) (d : Fin okmMaxDesc)
    (bytes : List UInt8) : Files × Except Errno ℕ :=
  if bytes = [] then (s, .ok 0)
  else if nonblock && !env.bounded then (s, .error .enosys)
  else
    let r := s.streamWrite env d bytes
    (r.1, r.2.mapError okmErrno)

/-! ## Nothing is held with a file -/

/-- No description of a file holds what an enquiry took. -/
def FilesHoldNothing (w : PortState) : Prop :=
  ∀ d, (w.desc d).kind = .file → (w.desc d).ahead = false ∧ (w.desc d).aheadEof = false

namespace FilesHoldNothing

variable {w : PortState}

/-- Only a description that can have input is enquired of, and a file waits for none. -/
theorem waitIn (h : FilesHoldNothing w) {d : Fin okmMaxDesc} (hroute : w.hasInputRoute d)
    (env : IoEnv) (ns : ℕ) : FilesHoldNothing (w.waitIn env d ns).port := by
  have hkind : (w.desc d).kind ≠ .file := by
    intro hfile
    simp [PortState.hasInputRoute, hfile] at hroute
  have hset : ∀ p : Desc, p.kind = (w.desc d).kind → FilesHoldNothing (w.setDesc d p) := by
    intro p hp d' hd'
    rw [PortState.setDesc_desc] at hd' ⊢
    by_cases hd : d' = d
    · subst hd
      rw [Function.update_self] at hd'
      exact absurd (hp.symm.trans hd') hkind
    · rw [Function.update_of_ne hd] at hd' ⊢
      exact h d' hd'
  have hw := PortState.waited_waitIn w env d ns
  generalize w.waitIn env d ns = q at hw
  cases hw with
  | same _ => exact h
  | byte b _ => exact hset _ rfl
  | eof _ => exact hset _ rfl
  | conn slot c _ _ _ => exact h
  | buf slot _ _ _ _ => exact h
  | message slot m _ _ _ => exact h

theorem pollOne {r : Round} (h : FilesHoldNothing r.port) (ns : ℕ) (e : PollFd) (env : IoEnv) :
    FilesHoldNothing (PortState.pollOne ns r e env).port := by
  unfold PortState.pollOne
  split_ifs
  · exact h
  · split
    · exact h
    · dsimp only
      split_ifs with hready hroute
      · exact h
      · have hw := h.waitIn hroute.2 env ns
        split <;> exact hw
      · exact h

theorem pollRound {r : Round} (h : FilesHoldNothing r.port) (ns : ℕ) (env : ℕ → IoEnv) (i : ℕ)
    (es : List PollFd) : FilesHoldNothing (PortState.pollRound ns env r i es).port := by
  induction es generalizing r i with
  | nil => exact h
  | cons e es ih => exact ih (h.pollOne ns e (env i)) (i + 1)

theorem pollRounds (h : FilesHoldNothing w) (fds : List PollFd) (single forever : Bool) (left : ℕ)
    (asked : List Asked) (rounds : List (ℕ → IoEnv)) :
    FilesHoldNothing (PortState.pollRounds fds single forever w left asked rounds).port := by
  induction rounds generalizing w left asked with
  | nil => exact h
  | cons env rounds ih =>
    unfold PortState.pollRounds
    dsimp only
    generalize (if single then (if forever then 0 else if left ≠ 0 then left else okmNowNs)
      else okmNowNs) = ns
    have hround : FilesHoldNothing (PortState.pollRound ns env { port := w } 0 fds).port :=
      FilesHoldNothing.pollRound (r := { port := w }) h ns env 0 fds
    generalize PortState.pollRound ns env { port := w } 0 fds = r at hround ⊢
    cases r.failure with
    | some e => split_ifs <;> exact hround
    | none =>
      dsimp only
      split_ifs
      · exact hround
      · exact hround
      · exact hround
      all_goals exact ih hround _ _

/-- **An enquiry leaves nothing with a file.** -/
theorem okmPoll (h : FilesHoldNothing w) (fds : Option (List PollFd)) (timeoutMs : Int)
    (rounds : List (ℕ → IoEnv)) : FilesHoldNothing (w.okmPoll fds timeoutMs rounds).port := by
  unfold PortState.okmPoll
  cases fds with
  | none => exact h
  | some fds =>
    dsimp only
    split_ifs
    · exact h
    all_goals exact h.pollRounds fds _ _ _ [] rounds

end FilesHoldNothing

/-- **`do_read` of a file** reads its stream, and alters nothing. -/
theorem PortState.doRead_file {w : PortState} (h : FilesHoldNothing w) {fd : Int}
    {d : Fin okmMaxDesc} (hd : w.okmDescOf fd = some d) (hkind : (w.desc d).kind = .file)
    (hblock : hasFlag (w.desc d).flags oNonblock = false) (env : FileEnv) (s : Files) (io : IoEnv)
    (len : ℕ) (hio : io.streamRead = (s.streamRead env d len).2) (alter : TermAlter)
    (interactive : Bool) :
    (w.doRead io alter interactive fd len).result = (doReadFile env false s d len).2 ∧
      (w.doRead io alter interactive fd len).port = w := by
  obtain ⟨hahead, heof⟩ := h d hkind
  have htake : okmTakeAhead (w.desc d) len = (w.desc d, .nothing) := by
    simp [okmTakeAhead, hahead, heof]
  have hof : streamOf (w.desc d) = .ok (w.desc d).stream := by simp [streamOf, hkind]
  have hnull : (w.desc d).kind ≠ .null := by simp [hkind]
  have hstream : w.doReadStream io fd len = if len = 0 then ⟨w, .ok [], []⟩
      else ⟨w, (transferOf len io.streamRead).result, (transferOf len io.streamRead).took⟩ := by
    unfold doReadStream
    simp only [hd, if_neg hnull, hof, htake, hblock, Bool.false_eq_true, if_false]
  have hread : w.doRead io alter interactive fd len = w.doReadStream io fd len := by
    unfold doRead
    have hport : (w.doReadStream io fd len).port = w := by
      rw [hstream]
      split_ifs <;> rfl
    have hstd : ∀ p : Prop, ¬(p ∧ (w.desc d).kind = .stream ∧ interactive) := by
      simp [hkind]
    cases hresult : (w.doReadStream io fd len).result with
    | error e => simp only [hresult]
    | ok bytes => simp only [hresult, hport, hd, if_neg (hstd _)]
  rw [hread, hstream]
  unfold doReadFile
  by_cases hlen : len = 0
  · rw [if_pos hlen, if_pos hlen]
    exact ⟨rfl, rfl⟩
  · rw [if_neg hlen, if_neg hlen, if_neg (by simp)]
    refine ⟨?_, rfl⟩
    dsimp only
    rw [hio]
    unfold Files.streamRead Files.readAt
    dsimp only
    cases env.answer s.transfers with
    | fails e => rfl
    | moves most =>
      -- no more is answered than was asked for
      have hle : ((s.under env d).read (s.pos d) (min len (most + 1))).length ≤ len := by
        rw [FileBytes.length_read]
        omega
      simp only [transferOf, List.take_of_length_le hle, Except.mapError]

end OpenkalMusl
