import OpenkalMusl.Files.Gathered
import OpenkalMusl.Stdio.Streams

/-!
# A stream that keeps nothing back

What the calls of a program do to a file with one place in it, where each goes to the file at once:
the bytes that were put back are before that place, and the end has been met or not.

## Main definitions

* `Flow`, `Flow.call`: such a stream, and the calls of it
* `Flow.Permits`: the calls that C allows

## Main results

* `Flow.write_write`, `Flow.read_add`: what is transferred in two parts is transferred in one
-/

namespace OpenkalMusl

/-- Whether the last transfer of a stream put bytes in or took bytes out; a seek or a flush forgets
it. -/
inductive Direction where
  | input | output
  deriving DecidableEq

/-- A stream that keeps nothing back. -/
structure Flow where
  file : FileBytes
  /-- The place of the next byte, where no byte was put back. -/
  place : ℕ
  pushed : List UInt8 := []
  eof : Bool := false
  last : Option Direction := none
  reads : Bool
  writes : Bool
  appends : Bool

namespace Flow

variable (a : Flow)

/-- What there is to be read. -/
def next : List UInt8 := if a.eof then [] else a.pushed ++ a.file.rest a.place

/-- Where the next byte is written. -/
def front : ℕ := if a.appends then a.file.size else a.place

/-- Bytes are written. -/
def write (bytes : List UInt8) : Flow :=
  { a with
    file := a.file.write a.front bytes
    place := if bytes = [] then a.place else a.front + bytes.length }

/-- Bytes are passed over. -/
def skip (k : ℕ) : Flow :=
  { a with place := a.place + (k - a.pushed.length), pushed := a.pushed.drop k }

/-- Bytes are read; the end is met where there are too few. -/
def read (len : ℕ) : Flow × List UInt8 :=
  ({ a.skip (a.next.take len).length with eof := a.eof || decide (a.next.length < len) },
    a.next.take len)

/-- The position that a program is told. -/
def tell : Int := a.place - a.pushed.length

/-- The place that an offset is added to. -/
def base : Whence → Int
  | .cur => a.tell
  | .fromEnd => a.file.size
  | .set | .other => 0

/-- The position is set, where there is such a one. -/
def seek (off : Int) (whence : Whence) : Flow × Bool :=
  let target : Int := a.base whence + off
  if whence = .other ∨ target < 0 then (a, false)
  else ({ a with place := target.toNat, pushed := [], eof := false, last := none }, true)

/-- A call. -/
def call : StdioCall → Flow × StdioAnswer
  | .fwrite size nmemb src =>
    ({ a.write src with last := some .output }, .items (if size = 0 then 0 else nmemb) [])
  | .putc c => ({ a.write [c] with last := some .output }, .byte (some c))
  | .fread size nmemb =>
    let r := a.read (size * nmemb)
    ({ r.1 with last := some .input }, .items (r.2.length / size) r.2)
  | .getc =>
    let r := a.read 1
    ({ r.1 with last := some .input }, .byte r.2.head?)
  | .ungetc c =>
    ({ a with pushed := c :: a.pushed, eof := false, last := some .input }, .byte (some c))
  | .fseek off whence =>
    let r := a.seek off whence
    (r.1, .status r.2)
  | .rewind => ((a.seek 0 .set).1, .status true)
  | .ftell => (a, .place (some a.tell))
  | .fflush =>
    ({ a with place := a.place - a.pushed.length, pushed := [], last := none }, .status true)
  | .clearerr => ({ a with eof := false }, .status true)

/-- The calls that C allows. What is written after what was read wants a seek or the end between,
and a byte put back wants room, and a position behind the beginning. -/
def Permits : StdioCall → Prop
  | .fwrite size nmemb src =>
    a.writes ∧ (a.last = some .input → a.eof) ∧ src.length = size * nmemb
  | .putc _ => a.writes ∧ (a.last = some .input → a.eof)
  | .fread _ _ | .getc => a.reads
  | .ungetc _ => a.reads ∧ a.pushed.length < unget ∧ a.pushed.length < a.place
  | .fseek _ _ | .rewind | .ftell | .fflush | .clearerr => True

/-- The calls of a run. -/
def calls : Flow → List StdioCall → Flow × List StdioAnswer
  | a, [] => (a, [])
  | a, c :: cs => (((a.call c).1.calls cs).1, (a.call c).2 :: ((a.call c).1.calls cs).2)

/-- C allows each call of a run, when it comes to it. -/
def PermitsAll : Flow → List StdioCall → Prop
  | _, [] => True
  | a, c :: cs => a.Permits c ∧ (a.call c).1.PermitsAll cs

theorem front_write (bytes : List UInt8) : (a.write bytes).front = a.front + bytes.length := by
  have hdef : (a.write bytes).front =
      if a.appends then (a.file.write a.front bytes).size
      else if bytes = [] then a.place else a.front + bytes.length := rfl
  rw [hdef]
  by_cases happends : a.appends = true
  · have hfront : a.front = a.file.size := if_pos happends
    rw [if_pos happends, hfront, FileBytes.size_write_end]
  · have hfront : a.front = a.place := if_neg happends
    rw [if_neg happends, hfront]
    split_ifs with hnil
    · rw [hnil, List.length_nil, Nat.add_zero]
    · rfl

instance : (c : StdioCall) → Decidable (a.Permits c)
  | .fwrite size nmemb src =>
    inferInstanceAs (Decidable (a.writes ∧ (a.last = some .input → a.eof) ∧
      src.length = size * nmemb))
  | .putc _ => inferInstanceAs (Decidable (a.writes ∧ (a.last = some .input → a.eof)))
  | .fread _ _ | .getc => inferInstanceAs (Decidable (a.reads = true))
  | .ungetc _ =>
    inferInstanceAs (Decidable (a.reads ∧ a.pushed.length < unget ∧ a.pushed.length < a.place))
  | .fseek _ _ | .rewind | .ftell | .fflush | .clearerr => inferInstanceAs (Decidable True)

instance decidablePermitsAll : (a : Flow) → (cs : List StdioCall) → Decidable (a.PermitsAll cs)
  | _, [] => inferInstanceAs (Decidable True)
  | a, c :: cs =>
    have := decidablePermitsAll (a.call c).1 cs
    inferInstanceAs (Decidable (a.Permits c ∧ (a.call c).1.PermitsAll cs))

/-- What is written in two parts is written in one. -/
theorem write_write (xs ys : List UInt8) : (a.write xs).write ys = a.write (xs ++ ys) := by
  have hfront := a.front_write xs
  unfold write at hfront ⊢
  rw [hfront]
  simp only [FileBytes.write_write, List.append_eq_nil_iff, List.length_append, Nat.add_assoc]
  rcases eq_or_ne ys [] with rfl | hys
  · simp only [if_true, and_true, List.length_nil, Nat.add_zero]
  · simp only [hys, and_false, if_false]

theorem write_nil : a.write [] = a := by
  rw [write, FileBytes.write_nil, if_pos rfl]

theorem next_skip (n : ℕ) : (a.skip n).next = a.next.drop n := by
  unfold next
  have heof : (a.skip n).eof = a.eof := rfl
  rw [heof]
  by_cases hend : a.eof = true
  · rw [if_pos hend, if_pos hend, List.drop_nil]
  · rw [if_neg hend, if_neg hend, List.drop_append, FileBytes.drop_rest]
    rfl

theorem skip_skip (n m : ℕ) : (a.skip n).skip m = a.skip (n + m) := by
  unfold skip
  dsimp only
  rw [List.length_drop, List.drop_drop, Nat.add_assoc]
  have hplace : n - a.pushed.length + (m - (a.pushed.length - n)) = n + m - a.pushed.length := by
    omega
  rw [hplace]

theorem read_of_le {n : ℕ} (h : n ≤ a.next.length) : a.read n = (a.skip n, a.next.take n) := by
  have hlen : (a.next.take n).length = n := by
    rw [List.length_take]
    omega
  have heof : (a.eof || decide (a.next.length < n)) = (a.skip n).eof := by
    rw [decide_eq_false (by omega), Bool.or_false]
    rfl
  unfold read
  rw [hlen, heof]

/-- What is read in two parts is read in one. -/
theorem read_add {n : ℕ} (h : n ≤ a.next.length) (l : ℕ) :
    a.read (n + l) = (((a.skip n).read l).1, a.next.take n ++ ((a.skip n).read l).2) := by
  have hnext := a.next_skip n
  unfold read
  rw [hnext, List.length_take, List.length_take, List.length_drop, skip_skip, List.take_add]
  have hskip : min (n + l) a.next.length = n + min l (a.next.length - n) := by omega
  have hend : (decide (a.next.length < n + l)) = decide (a.next.length - n < l) :=
    decide_eq_decide.mpr (by omega)
  rw [hskip, hend]
  rfl

/-- Where there is nothing, the end is met. -/
theorem read_of_nil (h : a.next = []) {l : ℕ} (hl : l ≠ 0) :
    a.read l = ({ a with eof := true }, []) := by
  unfold read
  rw [h, List.take_nil, List.length_nil, decide_eq_true (by omega), Bool.or_true]
  simp only [skip, Nat.zero_sub, Nat.add_zero, List.drop_zero]

/-- A stream that has just been opened. -/
def opened (w : StdioEnv) (s : Files) (reads writes : Bool) : Flow where
  file := s.under w.env w.d
  place := s.pos w.d
  reads := reads
  writes := writes
  appends := w.env.appends w.d

end Flow

end OpenkalMusl
