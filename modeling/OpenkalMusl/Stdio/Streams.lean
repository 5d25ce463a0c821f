import OpenkalMusl.Files.Transfers

/-!
# Buffered streams

The streams of `stdio`, over the description of a regular file: what a program writes is kept in a
buffer and handed on by `writev`, and what it reads comes from a buffer that `readv` fills together
with the caller's. `SYS_writev` and `SYS_readv` of a file are the loop of `transferStream`, and
`SYS_lseek` is the environment's seek.

The environment may move fewer bytes than it was given, even none: `__stdio_write` then asks again,
so that a call is given a number of times that it may ask, and has not returned where they do not
suffice. Locks and the orientation of a stream are left out.

## Main definitions

* `IoFile`: a stream; `Stdio`: a stream with the environment beneath it
* `stdioWrite`, `stdioRead`: `__stdio_write`, `__stdio_read`
* `Stdio.call`: the calls of a program
-/

namespace OpenkalMusl

/-- How far a byte may be put back before the buffer. -/
def unget : ℕ := 8

/-- `struct _IO_FILE`. The read buffer is what is between `rpos` and `rend`, with the room there is
before `rpos`; the write buffer is what is between `wbase` and `wpos`. Pointers that are null are
`none`. -/
structure IoFile where
  /-- The flags `F_NORD`, `F_NOWR`, `F_APP`, `F_ERR` and `F_EOF`. -/
  noread : Bool := false
  nowrite : Bool := false
  appends : Bool := false
  err : Bool := false
  eof : Bool := false
  bufSize : ℕ
  /-- The byte that ends a line, where the stream is buffered by lines. -/
  lbf : Option UInt8 := none
  reading : Option (ℕ × List UInt8) := none
  writing : Option (List UInt8) := none
  deriving DecidableEq

namespace IoFile

/-- What is kept to be written. -/
def pending (f : IoFile) : List UInt8 := f.writing.getD []

/-- What is kept to be read. -/
def ahead (f : IoFile) : List UInt8 := (f.reading.map Prod.snd).getD []

/-- `__towrite`; the answer is whether the stream may be written. -/
def toWrite (f : IoFile) : IoFile × Bool :=
  if f.nowrite then ({ f with err := true }, false)
  else ({ f with reading := none, writing := some [] }, true)

end IoFile

/-- From where a file is sought. -/
inductive Whence where
  | set | cur | fromEnd
  /-- Any other number. -/
  | other
  deriving DecidableEq

/-- The place that an offset is added to. -/
def Files.base (env : FileEnv) (s : Files) (d : Fin okmMaxDesc) : Whence → ℕ
  | .cur => s.pos d
  | .fromEnd => (s.under env d).size
  | .set | .other => 0

/-- `SYS_lseek` of a file. -/
def Files.seek (env : FileEnv) (s : Files) (d : Fin okmMaxDesc) (off : Int) (whence : Whence) :
    Files × Except KalError ℕ :=
  let s' := { s with seeks := s.seeks + 1 }
  match env.seekFails s.seeks with
  | some e => (s', .error e)
  | none =>
    let target : Int := s.base env d whence + off
    if whence = .other ∨ target < 0 then (s', .error .invalid)
    else (s'.moveTo d target.toNat, .ok target.toNat)

/-- A stream, and the environment beneath it. -/
structure Stdio where
  file : IoFile
  files : Files

/-- What the calls of a stream are made over: the environment, the description, whether it declines
to wait, and how often a call may ask. -/
structure StdioEnv where
  env : FileEnv
  d : Fin okmMaxDesc
  nonblock : Bool
  fuel : ℕ

variable (w : StdioEnv)

/-- The loop of `__stdio_write` over what is left of its two buffers, the second of which may be
the only one left: how many bytes of the second were taken where a transfer fails. -/
def stdioWriteLoop : ℕ → Files → List UInt8 → Option (List UInt8) → ℕ →
    Option (Files × Except ℕ Unit)
  | 0, _, _, _, _ => none
  | fuel + 1, s, first, second, len =>
    let t := transferStream w.env w.nonblock true w.d (first :: second.toList) s
    match t.result with
    | .error _ =>
      some (t.files, .error (if second.isSome then 0 else len - first.length))
    | .ok cnt =>
      if cnt = first.length + (second.getD []).length then some (t.files, .ok ())
      else if cnt > first.length then
        stdioWriteLoop fuel t.files ((second.getD []).drop (cnt - first.length)) none len
      else stdioWriteLoop fuel t.files (first.drop cnt) second len

/-- `__stdio_write`: what is kept and the bytes given, and how many of these were taken. -/
def stdioWrite (t : Stdio) (buf : List UInt8) : Option (Stdio × ℕ) :=
  (stdioWriteLoop w w.fuel t.files t.file.pending (some buf) buf.length).map fun r =>
    match r.2 with
    | .ok () => (⟨{ t.file with writing := some [] }, r.1⟩, buf.length)
    | .error n => (⟨{ t.file with writing := none, err := true }, r.1⟩, n)

/-- The transfer of `__stdio_read`: into the caller's buffer of `want` bytes and the stream's own
behind it, or into the latter alone. -/
def stdioFill (t : Stdio) (want : ℕ) : Files × Except Errno (List UInt8) :=
  if want ≠ 0 then
    let r := transferStream w.env w.nonblock false w.d
      [List.replicate want 0, List.replicate t.file.bufSize 0] t.files
    (r.files, r.result.map fun cnt => r.buffers.flatten.take cnt)
  else doReadFile w.env w.nonblock t.files w.d t.file.bufSize

/-- `__stdio_read` of at least one byte. The last byte asked for comes from the stream's own buffer,
where it has one. -/
def stdioRead (t : Stdio) (len : ℕ) : Stdio × List UInt8 :=
  let want := len - if t.file.bufSize = 0 then 0 else 1
  let r := stdioFill w t want
  match r.2 with
  | .error _ => (⟨{ t.file with err := true }, r.1⟩, [])
  | .ok [] => (⟨{ t.file with eof := true }, r.1⟩, [])
  | .ok got =>
    if got.length ≤ want then (⟨t.file, r.1⟩, got)
    else
      (⟨{ t.file with reading := some (unget + 1, got.drop (want + 1)) }, r.1⟩,
        got.take (want + 1))

/-- `__toread`; the answer is whether there may be something to read. -/
def Stdio.toRead (t : Stdio) : Option (Stdio × Bool) :=
  (if t.file.pending = [] then some t else (stdioWrite w t []).map Prod.fst).map fun t =>
    if t.file.noread then (⟨{ t.file with writing := none, err := true }, t.files⟩, false)
    else
      (⟨{ t.file with
          writing := none
          reading := some (t.file.bufSize + unget, []) }, t.files⟩, !t.file.eof)

/-- The place behind the last line that ends within the first `i` bytes. -/
def lineEnd (s : List UInt8) : ℕ → ℕ
  | 0 => 0
  | i + 1 => if s[i]? = some 10 then i + 1 else lineEnd s i

namespace Stdio

/-- Bytes are kept to be written. -/
def keep (t : Stdio) (bytes : List UInt8) : Stdio :=
  { t with file := { t.file with writing := some (t.file.pending ++ bytes) } }

/-- `__fwritex`: how many bytes were taken. -/
def fwritex (t : Stdio) (s : List UInt8) : Option (Stdio × ℕ) :=
  let g := if t.file.writing = none then t.file.toWrite else (t.file, true)
  let t := { t with file := g.1 }
  if g.2 = false then some (t, 0)
  else if s.length > t.file.bufSize - t.file.pending.length then stdioWrite w t s
  else
    let i := if t.file.lbf.isSome then lineEnd s s.length else 0
    if i = 0 then some (t.keep s, s.length)
    else (stdioWrite w t (s.take i)).map fun r =>
      if r.2 < i then r else (r.1.keep (s.drop i), s.length)

/-- `__overflow`: a byte that does not fit, or ends a line. -/
def overflow (t : Stdio) (c : UInt8) : Option (Stdio × Option UInt8) :=
  let g := if t.file.writing = none then t.file.toWrite else (t.file, true)
  let t := { t with file := g.1 }
  if g.2 = false then some (t, none)
  else if t.file.pending.length ≠ t.file.bufSize ∧ some c ≠ t.file.lbf then
    some (t.keep [c], some c)
  else (stdioWrite w t [c]).map fun r => (r.1, if r.2 = 1 then some c else none)

/-- `putc_unlocked`. -/
def putc (t : Stdio) (c : UInt8) : Option (Stdio × Option UInt8) :=
  if some c ≠ t.file.lbf ∧ t.file.writing ≠ none ∧ t.file.pending.length ≠ t.file.bufSize then
    some (t.keep [c], some c)
  else t.overflow w c

/-- Bytes are taken from the read buffer. -/
def pop (t : Stdio) (k : ℕ) : Stdio :=
  { t with file := { t.file with
      reading := t.file.reading.map fun r => (r.1 + min k r.2.length, r.2.drop k) } }

/-- The loop of `fread`, over the number of bytes still wanted. -/
def freadLoop : ℕ → Stdio → ℕ → Option (Stdio × List UInt8)
  | 0, t, _ => some (t, [])
  | n + 1, t, l =>
    if l = 0 then some (t, [])
    else (t.toRead w).bind fun r =>
      if r.2 = false then some (r.1, [])
      else
        let g := stdioRead w r.1 l
        if g.2 = [] then some (g.1, [])
        else (freadLoop n g.1 (l - g.2.length)).map fun q => (q.1, g.2 ++ q.2)

/-- `fread` of `len` bytes: the bytes that were read. -/
def freadBytes (t : Stdio) (len : ℕ) : Option (Stdio × List UInt8) :=
  let held := t.file.ahead.take len
  (freadLoop w len (t.pop held.length) (len - held.length)).map fun r => (r.1, held ++ r.2)

/-- `getc_unlocked`, and `__uflow` where nothing is kept. -/
def getc (t : Stdio) : Option (Stdio × Option UInt8) :=
  match t.file.ahead with
  | c :: _ => some (t.pop 1, some c)
  | [] => (t.toRead w).map fun r =>
    if r.2 = false then (r.1, none)
    else
      let g := stdioRead w r.1 1
      (g.1, g.2.head?)

/-- `ungetc`. -/
def ungetc (t : Stdio) (c : UInt8) : Option (Stdio × Option UInt8) :=
  (if t.file.reading = none then (t.toRead w).map Prod.fst else some t).map fun t =>
    match t.file.reading with
    | some (room + 1, ahead) =>
      (⟨{ t.file with reading := some (room, c :: ahead), eof := false }, t.files⟩, some c)
    | _ => (t, none)

/-- What is kept is written, where something is; the answer is whether it could be. -/
def flushPending (t : Stdio) : Option (Stdio × Bool) :=
  if t.file.pending = [] then some (t, true)
  else (stdioWrite w t []).map fun r => (r.1, r.1.file.writing.isSome)

/-- `__fseeko_unlocked`. -/
def fseek (t : Stdio) (off : Int) (whence : Whence) : Option (Stdio × Bool) :=
  if whence = .other then some (t, false)
  else
    let off := if whence = .cur then off - t.file.ahead.length else off
    (t.flushPending w).map fun r =>
      if r.2 = false then (r.1, false)
      else
        let f := { r.1.file with writing := none }
        let s := r.1.files.seek w.env w.d off whence
        match s.2 with
        | .error _ => (⟨f, s.1⟩, false)
        | .ok _ => (⟨{ f with reading := none, eof := false }, s.1⟩, true)

/-- `__ftello_unlocked`. -/
def ftell (t : Stdio) : Stdio × Option Int :=
  let s := t.files.seek w.env w.d 0
    (if t.file.appends ∧ t.file.pending ≠ [] then .fromEnd else .cur)
  let t' : Stdio := { t with files := s.1 }
  match s.2 with
  | .error _ => (t', none)
  | .ok pos =>
    let adjusted : Int := match t.file.reading with
      | some r => pos - r.2.length
      | none => pos + t.file.pending.length
    (t', some adjusted)

/-- `fflush` of one stream. What the seek back over what is kept to be read answers is not read. -/
def fflush (t : Stdio) : Option (Stdio × Bool) :=
  (t.flushPending w).map fun r =>
    if r.2 = false then (r.1, false)
    else
      let back : Int := -r.1.file.ahead.length
      let s := if r.1.file.ahead = [] then r.1.files
        else (r.1.files.seek w.env w.d back .cur).1
      (⟨{ r.1.file with writing := none, reading := none }, s⟩, true)

end Stdio

/-- A call of a program. -/
inductive StdioCall where
  | fwrite (size nmemb : ℕ) (src : List UInt8)
  | putc (c : UInt8)
  | fread (size nmemb : ℕ)
  | getc
  | ungetc (c : UInt8)
  | fseek (off : Int) (whence : Whence)
  | rewind
  | ftell
  | fflush
  | clearerr
  deriving DecidableEq

/-- What a call answers: how many items, with the bytes read; a byte or `EOF`; whether it succeeded;
or a position. -/
inductive StdioAnswer where
  | items (n : ℕ) (bytes : List UInt8)
  | byte (c : Option UInt8)
  | status (ok : Bool)
  | place (pos : Option Int)
  deriving DecidableEq

/-- The number of items that `k` bytes of `l` make up. -/
def itemsRead (size nmemb k : ℕ) : ℕ :=
  if k = size * nmemb then (if size = 0 then 0 else nmemb) else k / size

namespace Stdio

/-- A call, where it returns. -/
def call (t : Stdio) : StdioCall → Option (Stdio × StdioAnswer)
  | .fwrite size nmemb src =>
    (t.fwritex w src).map fun r => (r.1, .items (itemsRead size nmemb r.2) [])
  | .putc c => (t.putc w c).map fun r => (r.1, .byte r.2)
  | .fread size nmemb =>
    (t.freadBytes w (size * nmemb)).map fun r =>
      (r.1, .items (itemsRead size nmemb r.2.length) r.2)
  | .getc => (t.getc w).map fun r => (r.1, .byte r.2)
  | .ungetc c => (t.ungetc w c).map fun r => (r.1, .byte r.2)
  | .fseek off whence => (t.fseek w off whence).map fun r => (r.1, .status r.2)
  | .rewind =>
    (t.fseek w 0 .set).map fun r =>
      (⟨{ r.1.file with err := false }, r.1.files⟩, .status true)
  | .ftell =>
    let r := t.ftell w
    some (r.1, .place r.2)
  | .fflush => (t.fflush w).map fun r => (r.1, .status r.2)
  | .clearerr => some (⟨{ t.file with err := false, eof := false }, t.files⟩, .status true)

/-- The calls of a run, where each returns. -/
def calls : Stdio → List StdioCall → Option (Stdio × List StdioAnswer)
  | t, [] => some (t, [])
  | t, c :: cs => (t.call w c).bind fun r => (r.1.calls cs).map fun q => (q.1, r.2 :: q.2)

/-- A stream that has just been opened. -/
def opened (w : StdioEnv) (s : Files) (reads writes : Bool) (bufSize : ℕ) (lbf : Option UInt8) :
    Stdio where
  file := { noread := !reads, nowrite := !writes, appends := w.env.appends w.d, bufSize, lbf }
  files := s

end Stdio

end OpenkalMusl
