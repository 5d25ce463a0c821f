import OpenkalMusl.Stdio.Buffers

/-!
# A buffered stream is its file

What a program gets from a stream is what it would get if each call went to the file at once. Of the
buffer, of how the environment cuts its transfers, and of when what was kept is written, nothing can
be seen; and after `fflush` the file beneath is the one that the program has written.

What is kept to be read is ahead of the program and behind the description, and what is kept to be
written the other way round: the two cases of `Represents`.

## Main definitions

* `Outward`, `Inward`: what is kept to be written, and to be read
* `Stands`: what a buffered stream stands for

## Main results

* `Stands.call`: a call answers what the stream that it stands for answers
* `stream_is_its_file`: every run
-/

namespace OpenkalMusl

variable {w : StdioEnv}

/-! ## What a stream stands for -/

/-- The stream that keeps nothing back, with what is beneath a description for its file. -/
def Flow.beneath (w : StdioEnv) (s : Files) (a : Flow) : Flow :=
  { a with file := s.under w.env w.d, place := s.pos w.d }

variable {size : ℕ} {t : Stdio} {a : Flow} {room k : ℕ}

theorem Wrote.beneath (happends : w.env.appends w.d = a.appends) {s s' : Files}
    {bytes : List UInt8} (h : Wrote w.env w.d s s' bytes) :
    a.beneath w s' = (a.beneath w s).write bytes := by
  have hfront : (a.beneath w s).front = s.front w.env w.d := by
    rw [Files.front, happends]
    rfl
  unfold Flow.write
  rw [hfront]
  unfold Flow.beneath
  rw [h.under, h.pos_self]

/-- The flags of a stream, and the size of its buffer. -/
structure Agrees (w : StdioEnv) (size : ℕ) (f : IoFile) (a : Flow) : Prop where
  eof : f.eof = a.eof
  reads : f.noread = !a.reads
  writes : f.nowrite = !a.writes
  appends : f.appends = a.appends
  opened : w.env.appends w.d = a.appends
  bufSize : f.bufSize = size

/-- Nothing is kept to be read; the file with what is kept to be written is the one. -/
structure Outward (w : StdioEnv) (t : Stdio) (a : Flow) : Prop where
  reading : t.file.reading = none
  fits : t.file.pending.length ≤ t.file.bufSize
  written : a = (a.beneath w t.files).write t.file.pending
  pushed : a.pushed = []

/-- What was put back and the next `k` bytes of the file are kept to be read, with `room` before
them; the description is behind them. -/
structure Inward (w : StdioEnv) (t : Stdio) (a : Flow) (room k : ℕ) : Prop where
  writing : t.file.writing = none
  reading : t.file.reading = some (room, a.pushed ++ (a.file.rest a.place).take k)
  le_rest : k ≤ (a.file.rest a.place).length
  under : t.files.under w.env w.d = a.file
  pos : t.files.pos w.d = a.place + k
  spare : unget ≤ room + a.pushed.length
  pushed_le : a.pushed.length ≤ a.place
  ended : a.eof = true → a.pushed = [] ∧ k = 0

/-- A buffered stream and the one that keeps nothing back. -/
structure Represents (w : StdioEnv) (size : ℕ) (t : Stdio) (a : Flow) : Prop where
  agrees : Agrees w size t.file a
  mode : Outward w t a ∨ ∃ room k, Inward w t a room k

/-- A buffered stream stands for one that keeps nothing back; what is kept to be read was read
last. -/
structure Stands (w : StdioEnv) (size : ℕ) (t : Stdio) (a : Flow) : Prop
    extends Represents w size t a where
  input : t.file.reading ≠ none → a.last = some .input

namespace Outward

theorem ahead (h : Outward w t a) : t.file.ahead = [] := by
  rw [IoFile.ahead, h.reading]
  rfl

/-- Where nothing is kept to be written, the file is the one beneath. -/
theorem eq_beneath (h : Outward w t a) (hnone : t.file.pending = []) : a = a.beneath w t.files := by
  have hwritten := h.written
  rwa [hnone, Flow.write_nil] at hwritten

/-- More is kept. -/
theorem keep (h : Outward w t a) {bytes : List UInt8}
    (hfits : (t.file.pending ++ bytes).length ≤ t.file.bufSize) :
    Outward w (t.keep bytes) (a.write bytes) where
  reading := h.reading
  fits := hfits
  written := by
    calc a.write bytes = ((a.beneath w t.files).write t.file.pending).write bytes := by
          rw [← h.written]
      _ = (a.beneath w t.files).write (t.file.pending ++ bytes) := Flow.write_write _ _ _
  pushed := h.pushed

/-- What was kept has been written, and more. -/
theorem wrote (h : Outward w t a) (hopened : w.env.appends w.d = a.appends) {f : IoFile} {s : Files}
    {bytes : List UInt8} (hwrote : Wrote w.env w.d t.files s (t.file.pending ++ bytes))
    (hreading : f.reading = none) (hpending : f.pending = []) :
    Outward w ⟨f, s⟩ (a.write bytes) where
  reading := hreading
  fits := by
    rw [hpending]
    exact Nat.zero_le _
  written := by
    have hall : a.write bytes = a.beneath w s := by
      calc a.write bytes = ((a.beneath w t.files).write t.file.pending).write bytes := by
            rw [← h.written]
        _ = (a.beneath w t.files).write (t.file.pending ++ bytes) := Flow.write_write _ _ _
        _ = a.beneath w s := (hwrote.beneath hopened).symm
    rw [hpending, Flow.write_nil, hall]
    rfl
  pushed := h.pushed

/-- Only what is beneath and what is kept matter. -/
theorem congr (h : Outward w t a) {a' : Flow}
    (hsame : a' = { a with eof := a'.eof, last := a'.last }) {s : Files}
    (hunder : s.under w.env w.d = t.files.under w.env w.d)
    (hpos : s.pos w.d = t.files.pos w.d) {f : IoFile} (hreading : f.reading = none)
    (hpending : f.pending = t.file.pending) (hsize : f.bufSize = t.file.bufSize) :
    Outward w ⟨f, s⟩ a' where
  reading := hreading
  fits := by
    rw [hpending, hsize]
    exact h.fits
  written := by
    have hbeneath : a'.beneath w s =
        { a.beneath w t.files with eof := a'.eof, last := a'.last } := by
      unfold Flow.beneath
      rw [hsame, hunder, hpos]
    rw [hpending, hbeneath]
    exact hsame.trans
      (congrArg (fun b : Flow => { b with eof := a'.eof, last := a'.last }) h.written)
  pushed := by
    rw [hsame]
    exact h.pushed

end Outward

namespace Inward

theorem ahead (h : Inward w t a room k) :
    t.file.ahead = a.pushed ++ (a.file.rest a.place).take k := by
  rw [IoFile.ahead, h.reading]
  rfl

theorem length_ahead (h : Inward w t a room k) : t.file.ahead.length = a.pushed.length + k := by
  rw [h.ahead, List.length_append, List.length_take, Nat.min_eq_left h.le_rest]

theorem pending (h : Inward w t a room k) : t.file.pending = [] := by
  rw [IoFile.pending, h.writing]
  rfl

/-- Where nothing is kept, the file is the one beneath. -/
theorem eq_beneath (h : Inward w t a room k) (hnone : t.file.ahead = []) :
    a = a.beneath w t.files ∧ a.pushed = [] ∧ k = 0 := by
  have hlen := h.length_ahead
  rw [hnone, List.length_nil] at hlen
  have hk : k = 0 := by omega
  have hpos := h.pos
  rw [hk, Nat.add_zero] at hpos
  refine ⟨?_, List.length_eq_zero_iff.mp (by omega), hk⟩
  unfold Flow.beneath
  rw [h.under, hpos]

/-- What is kept is the beginning of what there is to be read. -/
theorem ahead_prefix (h : Inward w t a room k) : t.file.ahead <+: a.next := by
  rw [h.ahead, Flow.next]
  by_cases heof : a.eof = true
  · obtain ⟨hpushed, rfl⟩ := h.ended heof
    rw [hpushed, List.take_zero, List.append_nil]
    exact List.nil_prefix
  · rw [if_neg heof]
    exact List.prefix_append_right_inj _ |>.mpr (List.take_prefix _ _)

end Inward

/-! ## Reading -/

section Reading

/-- Bytes that are kept are taken. -/
theorem Inward.pop (h : Inward w t a room k) {n : ℕ} (hn : n ≤ t.file.ahead.length) :
    Inward w (t.pop n) (a.skip n) (room + n) (k - (n - a.pushed.length)) := by
  have hlen := h.length_ahead
  have hbehind : n - a.pushed.length ≤ k := by omega
  have hrest : (a.file.rest a.place).drop (n - a.pushed.length) =
      a.file.rest (a.place + (n - a.pushed.length)) := FileBytes.drop_rest _ _ _
  refine ⟨h.writing, ?_, ?_, h.under, ?_, ?_, ?_, fun heof => ?_⟩
  · have hread : (t.pop n).file.reading = some (room + min n t.file.ahead.length,
        t.file.ahead.drop n) := by
      rw [h.ahead]
      simp only [Stdio.pop, h.reading, Option.map_some]
    rw [hread, Nat.min_eq_left hn, h.ahead, List.drop_append, List.drop_take, hrest]
    rfl
  · have hle := h.le_rest
    rw [FileBytes.length_rest] at hle ⊢
    simp only [Flow.skip]
    omega
  · rw [Stdio.pop, h.pos]
    simp only [Flow.skip]
    omega
  · have hspare := h.spare
    simp only [Flow.skip, List.length_drop]
    omega
  · have hle := h.pushed_le
    simp only [Flow.skip, List.length_drop]
    omega
  · obtain ⟨hpushed, hk⟩ := h.ended heof
    rw [hk, Nat.zero_sub]
    exact ⟨by rw [Flow.skip, hpushed, List.drop_nil], rfl⟩

/-- A stream of which nothing is kept is made ready to be read. -/
theorem toRead_spec (hserves : w.Serves) (h : Represents w size t a) (hnone : t.file.ahead = [])
    (hreads : a.reads = true) {r : Stdio × Bool} (hr : t.toRead w = some r) :
    r.2 = !a.eof ∧ r.1.file.ahead = [] ∧ Agrees w size r.1.file a ∧
      ∃ room, Inward w r.1 a room 0 := by
  have hnoread : t.file.noread = false := by rw [h.agrees.reads, hreads, Bool.not_true]
  -- what was kept to be written is written first
  obtain ⟨q, hq, hthen⟩ := Option.map_eq_some_iff.mp hr
  obtain ⟨hsame, hfile, hpushed⟩ : a = a.beneath w q.files ∧
      (q.file = t.file ∨ q.file = { t.file with writing := some [] }) ∧ a.pushed = [] := by
    rcases h.mode with hout | ⟨room, k, hin⟩
    · split_ifs at hq with hpending
      · obtain rfl := Option.some.inj hq
        exact ⟨hout.eq_beneath hpending, .inl rfl, hout.pushed⟩
      · obtain ⟨p, hp, rfl⟩ := Option.map_eq_some_iff.mp hq
        obtain ⟨hwrote, hfile, -⟩ := stdioWrite_all hserves hp
        have hdone := hout.wrote h.agrees.opened (f := p.1.file) hwrote
          (by rw [hfile]; exact hout.reading) (by rw [hfile]; rfl)
        rw [Flow.write_nil] at hdone
        exact ⟨hdone.eq_beneath (by rw [hfile]; rfl), .inr hfile, hout.pushed⟩
    · rw [if_pos hin.pending] at hq
      obtain rfl := Option.some.inj hq
      obtain ⟨hsame, hpushed, -⟩ := hin.eq_beneath hnone
      exact ⟨hsame, .inl rfl, hpushed⟩
  have hflags : q.file.noread = t.file.noread ∧ q.file.eof = t.file.eof ∧
      q.file.nowrite = t.file.nowrite ∧ q.file.appends = t.file.appends ∧
      q.file.bufSize = t.file.bufSize := by
    rcases hfile with hfile | hfile <;> rw [hfile] <;> exact ⟨rfl, rfl, rfl, rfl, rfl⟩
  rw [hflags.1, hnoread, if_neg Bool.false_ne_true] at hthen
  obtain rfl := hthen
  have hagrees := h.agrees
  refine ⟨?_, rfl, ⟨?_, ?_, ?_, ?_, hagrees.opened, ?_⟩, q.file.bufSize + unget, rfl, ?_,
    Nat.zero_le _, ?_, ?_, ?_, ?_, fun _ => ⟨hpushed, rfl⟩⟩
  · rw [hflags.2.1, hagrees.eof]
  · exact hflags.2.1.trans hagrees.eof
  · exact hflags.1.trans hagrees.reads
  · exact hflags.2.2.1.trans hagrees.writes
  · exact hflags.2.2.2.1.trans hagrees.appends
  · exact hflags.2.2.2.2.trans hagrees.bufSize
  · rw [hpushed, List.take_zero, List.append_nil]
  · exact (congrArg Flow.file hsame).symm
  · exact (congrArg Flow.place hsame).symm
  · omega
  · rw [hpushed]
    exact Nat.zero_le _

/-- The buffer is filled, where nothing is kept and the end has not been met. -/
theorem Inward.fill (hserves : w.Serves) (h : Inward w t a room 0)
    (hagrees : Agrees w size t.file a) (hnone : t.file.ahead = []) (heof : a.eof = false) {len : ℕ}
    (hlen : len ≠ 0) :
    (stdioRead w t len).2.length ≤ len ∧
      (((stdioRead w t len).2 = [] ∧ a.next = [] ∧
          Represents w size (stdioRead w t len).1 { a with eof := true }) ∨
        ((stdioRead w t len).2 ≠ [] ∧
          (stdioRead w t len).2 = a.next.take (stdioRead w t len).2.length ∧
          Represents w size (stdioRead w t len).1 (a.skip (stdioRead w t len).2.length) ∧
          ((stdioRead w t len).2.length = len ∨ (stdioRead w t len).1.file.ahead = []))) := by
  obtain ⟨kept, htook, hle, hcases⟩ := stdioRead_spec hserves (t := t) hlen
  obtain ⟨hsame, hpushed, -⟩ := h.eq_beneath hnone
  generalize stdioRead w t len = r at htook hle hcases ⊢
  obtain ⟨t', got⟩ := r
  dsimp only at htook hle hcases ⊢
  have hnext : a.next = a.file.rest a.place := by
    rw [Flow.next, heof, if_neg Bool.false_ne_true, hpushed, List.nil_append]
  have hrest : (t.files.under w.env w.d).rest (t.files.pos w.d) = a.next := by
    rw [hnext, h.under, h.pos, Nat.add_zero]
  have hbytes := htook.bytes_eq
  rw [hrest] at hbytes
  have hunder : t'.files.under w.env w.d = a.file := htook.under.trans h.under
  have hpos : t'.files.pos w.d = a.place + (got.length + kept.length) := by
    rw [htook.pos_self, h.pos, List.length_append, Nat.add_zero]
  -- what was read is passed over, and what was read beyond it is kept
  have hin : ∀ {room'}, t'.file.writing = none → t'.file.reading = some (room', kept) →
      unget ≤ room' → Inward w t' (a.skip got.length) room' kept.length := by
    intro room' hwriting hreading hspare
    have hskip : (a.skip got.length).place = a.place + got.length := by
      rw [Flow.skip, hpushed, List.length_nil, Nat.sub_zero]
    have hnil : (a.skip got.length).pushed = [] := by rw [Flow.skip, hpushed, List.drop_nil]
    have hkept : kept = (a.file.rest (a.place + got.length)).take kept.length := by
      have hdrop := congrArg (List.drop got.length) hbytes
      rwa [List.drop_left, List.length_append, List.take_add,
        List.drop_left' (by
          have hlen := congrArg List.length hbytes
          simp only [List.length_append, List.length_take] at hlen ⊢
          omega), hnext, FileBytes.drop_rest] at hdrop
    refine ⟨hwriting, ?_, ?_, hunder, ?_, ?_, ?_, fun hend => ?_⟩
    · rw [hreading, hnil, List.nil_append, hskip]
      exact congrArg (fun l => some (room', l)) hkept
    · rw [hskip]
      have hkeptLen := congrArg List.length hkept
      rw [List.length_take] at hkeptLen
      exact hkeptLen.symm ▸ Nat.min_le_right _ _
    · rw [hpos, hskip]
      omega
    · omega
    · rw [hnil]
      exact Nat.zero_le _
    · exact absurd (heof.symm.trans hend) Bool.false_ne_true
  have hskip : Agrees w size t.file (a.skip got.length) :=
    ⟨hagrees.1, hagrees.2, hagrees.3, hagrees.4, hagrees.5, hagrees.6⟩
  refine ⟨hle, ?_⟩
  rcases hcases with ⟨rfl, rfl, hend, hfile⟩ | ⟨hne, rfl, hfile⟩ | ⟨hfull, hfile⟩
  · have hstill := @hin room (by rw [hfile]; exact h.writing)
      (by rw [hfile, h.reading, hpushed, List.take_zero, List.append_nil])
      (by have hspare := h.spare; rwa [hpushed] at hspare)
    refine .inl ⟨rfl, hrest.symm.trans hend, ?_, .inr ⟨room, 0, ?_⟩⟩
    · rw [hfile]
      exact ⟨rfl, hagrees.2, hagrees.3, hagrees.4, hagrees.5, hagrees.6⟩
    · have hzero : a.skip 0 = a := by
        rw [Flow.skip, Nat.zero_sub, Nat.add_zero, List.drop_zero]
      rw [List.length_nil, hzero] at hstill
      exact ⟨hstill.writing, hstill.reading, hstill.le_rest, hstill.under, hstill.pos,
        hstill.spare, hstill.pushed_le, fun _ => ⟨hpushed, rfl⟩⟩
  · rw [List.append_nil] at hbytes
    refine .inr ⟨hne, hbytes, ⟨?_, .inr ⟨room, _, hin ?_ ?_ ?_⟩⟩, .inr ?_⟩
    · rw [hfile]
      exact hskip
    · rw [hfile]
      exact h.writing
    · rw [hfile, h.reading, hpushed, List.take_zero, List.append_nil]
    · have hspare := h.spare
      rwa [hpushed] at hspare
    · rw [hfile]
      exact hnone
  · refine .inr ⟨?_, ?_, ⟨?_, .inr ⟨unget + 1, _, hin ?_ ?_ (Nat.le_succ _)⟩⟩, .inl hfull⟩
    · rintro rfl
      exact hlen hfull.symm
    · have htake := congrArg (List.take got.length) hbytes
      rwa [List.take_left, List.take_take, List.length_append,
        Nat.min_eq_left (Nat.le_add_right _ _)] at htake
    · rw [hfile]
      exact ⟨hskip.1, hskip.2, hskip.3, hskip.4, hskip.5, hskip.6⟩
    · rw [hfile]
      exact h.writing
    · rw [hfile]

/-- The loop of `fread`. -/
theorem freadLoop_spec (hserves : w.Serves) {n : ℕ} {t : Stdio} {a : Flow} {l : ℕ}
    (h : Represents w size t a) (hreads : a.reads = true) (hl : l ≤ n)
    (hnone : l = 0 ∨ t.file.ahead = []) {r : Stdio × List UInt8}
    (hr : Stdio.freadLoop w n t l = some r) :
    r.2 = (a.read l).2 ∧ Represents w size r.1 (a.read l).1 := by
  have hzero : ∀ a : Flow, a.read 0 = (a, []) := fun a => by
    rw [Flow.read_of_le a (Nat.zero_le _), Flow.skip, Nat.zero_sub, Nat.add_zero, List.drop_zero,
      List.take_zero]
  induction n generalizing t a l r with
  | zero =>
    obtain rfl := Nat.le_zero.mp hl
    obtain rfl := Option.some.inj hr
    rw [hzero]
    exact ⟨rfl, h⟩
  | succ n ih =>
    unfold Stdio.freadLoop at hr
    by_cases hlen : l = 0
    · rw [if_pos hlen] at hr
      obtain rfl := Option.some.inj hr
      rw [hlen, hzero]
      exact ⟨rfl, h⟩
    rw [if_neg hlen] at hr
    obtain ⟨q, hq, hthen⟩ := Option.bind_eq_some_iff.mp hr
    obtain ⟨hready, hahead, hagrees, room, hin⟩ := toRead_spec hserves h
      (hnone.resolve_left hlen) hreads hq
    by_cases heof : a.eof = true
    · -- the end has been met before
      rw [hready, heof, Bool.not_true, if_pos rfl] at hthen
      obtain rfl := Option.some.inj hthen
      have hnext : a.next = [] := by rw [Flow.next, if_pos heof]
      have hread : a.read l = (a, []) := by
        rw [a.read_of_nil hnext hlen, ← heof]
      rw [hread]
      exact ⟨rfl, hagrees, .inr ⟨room, 0, hin⟩⟩
    · have hopen : a.eof = false := Bool.eq_false_of_not_eq_true heof
      rw [hready, hopen, Bool.not_false, if_neg Bool.true_eq_false.mp] at hthen
      dsimp only at hthen
      obtain ⟨hle, hcases⟩ := hin.fill hserves hagrees hahead hopen hlen
      generalize stdioRead w q.1 l = g at hthen hle hcases
      rcases hcases with ⟨hnil, hnext, hrep⟩ | ⟨hne, hbytes, hrep, hmore⟩
      · rw [if_pos hnil] at hthen
        obtain rfl := Option.some.inj hthen
        rw [a.read_of_nil hnext hlen]
        exact ⟨rfl, hrep⟩
      · rw [if_neg hne] at hthen
        obtain ⟨p, hp, rfl⟩ := Option.map_eq_some_iff.mp hthen
        have hpos : 0 < g.2.length := List.length_pos_iff.mpr hne
        obtain ⟨hbytes', hrep'⟩ := ih hrep hreads (by omega)
          (hmore.imp (fun hfull => by omega) id) hp
        have hgot : g.2.length ≤ a.next.length := by
          have hlen := congrArg List.length hbytes
          rw [List.length_take] at hlen
          omega
        have hsplit := a.read_add hgot (l - g.2.length)
        rw [Nat.add_sub_cancel' hle, ← hbytes] at hsplit
        rw [hsplit]
        exact ⟨congrArg (g.2 ++ ·) hbytes', hrep'⟩

theorem Represents.pop (h : Represents w size t a) {n : ℕ} (hn : n ≤ t.file.ahead.length) :
    Represents w size (t.pop n) (a.skip n) ∧ (t.pop n).file.ahead = t.file.ahead.drop n := by
  refine ⟨⟨⟨h.agrees.1, h.agrees.2, h.agrees.3, h.agrees.4, h.agrees.5, h.agrees.6⟩, ?_⟩, ?_⟩
  · rcases h.mode with hout | ⟨room, k, hin⟩
    · rw [hout.ahead] at hn
      obtain rfl : n = 0 := Nat.le_zero.mp hn
      have hsame : a.skip 0 = a := by
        rw [Flow.skip, Nat.zero_sub, Nat.add_zero, List.drop_zero]
      have hreading : (t.pop 0).file.reading = none := by
        rw [Stdio.pop, hout.reading, Option.map_none]
      rw [hsame]
      exact .inl (hout.congr rfl rfl rfl hreading rfl rfl)
    · exact .inr ⟨_, _, hin.pop hn⟩
  · unfold IoFile.ahead Stdio.pop
    cases t.file.reading with
    | none => exact List.drop_nil.symm
    | some r => rfl

/-- `fread`. -/
theorem freadBytes_spec (hserves : w.Serves) (h : Represents w size t a) (hreads : a.reads = true)
    {len : ℕ} {r : Stdio × List UInt8} (hr : t.freadBytes w len = some r) :
    r.2 = (a.read len).2 ∧ Represents w size r.1 (a.read len).1 := by
  obtain ⟨q, hq, rfl⟩ := Option.map_eq_some_iff.mp hr
  have hprefix : t.file.ahead <+: a.next := by
    rcases h.mode with hout | ⟨room, k, hin⟩
    · rw [hout.ahead]
      exact List.nil_prefix
    · exact hin.ahead_prefix
  -- what is kept comes first
  generalize hheld : t.file.ahead.take len = held at hq ⊢
  have hlen : held.length = min len t.file.ahead.length := by rw [← hheld, List.length_take]
  have hle : held.length ≤ a.next.length := by
    have hall := hprefix.length_le
    omega
  obtain ⟨hpop, hahead⟩ := h.pop (n := held.length) (by omega)
  have hrest : len - held.length = 0 ∨ (t.pop held.length).file.ahead = [] := by
    rw [hahead, List.drop_eq_nil_iff]
    omega
  obtain ⟨hbytes, hrep⟩ := freadLoop_spec hserves hpop hreads (Nat.sub_le _ _) hrest hq
  have hfirst : a.next.take held.length = held := by
    rw [List.prefix_iff_eq_take.mp hprefix] at hheld
    rw [← hheld, List.take_take, List.length_take]
    congr 1
    omega
  have hsplit := a.read_add hle (len - held.length)
  rw [Nat.add_sub_cancel' (by omega), hfirst] at hsplit
  rw [hsplit]
  exact ⟨congrArg (held ++ ·) hbytes, hrep⟩

end Reading

/-! ## Writing -/

section Writing

/-- A stream of which nothing is kept to be read is made ready to be written. -/
theorem toWrite_spec (h : Represents w size t a) (hnone : t.file.ahead = [])
    (hwrites : a.writes = true) {g : IoFile × Bool}
    (hg : (if t.file.writing = none then t.file.toWrite else (t.file, true)) = g) :
    g.2 = true ∧ Agrees w size g.1 a ∧ Outward w ⟨g.1, t.files⟩ a := by
  have hagrees := h.agrees
  have hnowrite : t.file.nowrite = false := by rw [hagrees.writes, hwrites, Bool.not_true]
  by_cases hwriting : t.file.writing = none
  · unfold IoFile.toWrite at hg
    rw [if_pos hwriting, hnowrite, if_neg Bool.false_ne_true] at hg
    subst hg
    refine ⟨rfl, ⟨hagrees.1, hagrees.2, hnowrite.symm.trans hagrees.3, hagrees.4, hagrees.5,
      hagrees.6⟩, ?_⟩
    rcases h.mode with hout | ⟨room, k, hin⟩
    · refine hout.congr rfl rfl rfl rfl ?_ rfl
      rw [IoFile.pending, IoFile.pending, hwriting]
      rfl
    · obtain ⟨hsame, hpushed, -⟩ := hin.eq_beneath hnone
      refine ⟨rfl, Nat.zero_le _, ?_, hpushed⟩
      exact hsame.trans (Flow.write_nil _).symm
  · rw [if_neg hwriting] at hg
    subst hg
    refine ⟨rfl, hagrees, ?_⟩
    rcases h.mode with hout | ⟨room, k, hin⟩
    · exact hout
    · exact absurd hin.writing hwriting

/-- What was kept and is given is written. -/
theorem Outward.stdioWrite (hserves : w.Serves) (h : Outward w t a)
    (hagrees : Agrees w size t.file a) {bytes : List UInt8} {r : Stdio × ℕ}
    (hr : stdioWrite w t bytes = some r) :
    r.2 = bytes.length ∧ r.1.file = { t.file with writing := some [] } ∧
      Agrees w size r.1.file (a.write bytes) ∧ Outward w r.1 (a.write bytes) := by
  obtain ⟨hwrote, hfile, hcount⟩ := stdioWrite_all hserves hr
  refine ⟨hcount, hfile, ?_, h.wrote hagrees.opened hwrote ?_ ?_⟩
  · rw [hfile]
    exact ⟨hagrees.1, hagrees.2, hagrees.3, hagrees.4, hagrees.5, hagrees.6⟩
  · rw [hfile]
    exact h.reading
  · rw [hfile]
    rfl
/-- `__fwritex`. -/
theorem fwritex_spec (hserves : w.Serves) (h : Represents w size t a) (hnone : t.file.ahead = [])
    (hwrites : a.writes = true) {s : List UInt8} {r : Stdio × ℕ} (hr : t.fwritex w s = some r) :
    r.2 = s.length ∧ r.1.file.reading = none ∧ Represents w size r.1 (a.write s) := by
  unfold Stdio.fwritex at hr
  generalize hg : (if t.file.writing = none then t.file.toWrite else (t.file, true)) = g at hr
  obtain ⟨hready, hagrees, hout⟩ := toWrite_spec h hnone hwrites hg
  dsimp only at hr
  rw [hready, if_neg Bool.true_eq_false.mp] at hr
  have hfits := hout.fits
  dsimp only at hfits
  by_cases hlarge : s.length > g.1.bufSize - g.1.pending.length
  · rw [if_pos hlarge] at hr
    obtain ⟨hcount, hfile, hagrees', hout'⟩ := hout.stdioWrite hserves hagrees hr
    exact ⟨hcount, hout'.reading, hagrees', .inl hout'⟩
  rw [if_neg hlarge] at hr
  by_cases hline : (if g.1.lbf.isSome = true then lineEnd s s.length else 0) = 0
  · rw [if_pos hline] at hr
    obtain rfl := Option.some.inj hr
    have hout' := @Outward.keep w _ _ hout s (by
      dsimp only
      rw [List.length_append]
      omega)
    exact ⟨rfl, hout'.reading,
      ⟨hagrees.1, hagrees.2, hagrees.3, hagrees.4, hagrees.5, hagrees.6⟩, .inl hout'⟩
  · -- whole lines are written, and what follows them is kept
    rw [if_neg hline] at hr
    have hle : (if g.1.lbf.isSome = true then lineEnd s s.length else 0) ≤ s.length := by
      split_ifs
      · exact lineEnd_le s s.length
      · exact Nat.zero_le _
    generalize (if g.1.lbf.isSome = true then lineEnd s s.length else 0) = i at hr hle
    obtain ⟨q, hq, rfl⟩ := Option.map_eq_some_iff.mp hr
    obtain ⟨hcount, hfile, hagrees', hout'⟩ := hout.stdioWrite hserves hagrees hq
    have htaken : ¬q.2 < i := by
      rw [hcount, List.length_take]
      omega
    rw [if_neg htaken]
    have hkept := @Outward.keep w _ _ hout' (s.drop i) (by
      have hpending : q.1.file.pending = [] := by
        rw [hfile]
        rfl
      have hsize : q.1.file.bufSize = g.1.bufSize := by rw [hfile]
      rw [hpending, hsize, List.nil_append, List.length_drop]
      omega)
    rw [Flow.write_write, List.take_append_drop] at hkept
    exact ⟨rfl, hkept.reading,
      ⟨hagrees'.1, hagrees'.2, hagrees'.3, hagrees'.4, hagrees'.5, hagrees'.6⟩, .inl hkept⟩

/-- `putc`. -/
theorem putc_spec (hserves : w.Serves) (h : Represents w size t a) (hnone : t.file.ahead = [])
    (hwrites : a.writes = true) {c : UInt8} {r : Stdio × Option UInt8}
    (hr : t.putc w c = some r) :
    r.2 = some c ∧ r.1.file.reading = none ∧ Represents w size r.1 (a.write [c]) := by
  have hkeep : ∀ {t : Stdio}, Agrees w size t.file a → Outward w t a →
      t.file.pending.length ≠ t.file.bufSize →
      (t.keep [c]).file.reading = none ∧ Represents w size (t.keep [c]) (a.write [c]) := by
    intro t hagrees hout hroom
    have hfits := hout.fits
    have hout' := @Outward.keep w _ _ hout [c] (by
      rw [List.length_append, List.length_singleton]
      omega)
    exact ⟨hout'.reading,
      ⟨hagrees.1, hagrees.2, hagrees.3, hagrees.4, hagrees.5, hagrees.6⟩, .inl hout'⟩
  unfold Stdio.putc at hr
  by_cases hfast : some c ≠ t.file.lbf ∧ t.file.writing ≠ none ∧
      t.file.pending.length ≠ t.file.bufSize
  · rw [if_pos hfast] at hr
    obtain rfl := Option.some.inj hr
    obtain ⟨-, hagrees, hout⟩ := toWrite_spec h hnone hwrites (if_neg hfast.2.1)
    exact ⟨rfl, hkeep hagrees hout hfast.2.2⟩
  · rw [if_neg hfast] at hr
    unfold Stdio.overflow at hr
    generalize hg : (if t.file.writing = none then t.file.toWrite else (t.file, true)) = g at hr
    obtain ⟨hready, hagrees, hout⟩ := toWrite_spec h hnone hwrites hg
    dsimp only at hr
    rw [hready, if_neg Bool.true_eq_false.mp] at hr
    by_cases hroom : g.1.pending.length ≠ g.1.bufSize ∧ some c ≠ g.1.lbf
    · rw [if_pos hroom] at hr
      obtain rfl := Option.some.inj hr
      exact ⟨rfl, hkeep hagrees hout hroom.1⟩
    · rw [if_neg hroom] at hr
      obtain ⟨q, hq, rfl⟩ := Option.map_eq_some_iff.mp hr
      obtain ⟨hcount, -, hagrees', hout'⟩ := hout.stdioWrite hserves hagrees hq
      have hone : q.2 = 1 := hcount
      refine ⟨?_, hout'.reading, hagrees', .inl hout'⟩
      rw [if_pos hone]

end Writing

/-! ## Positions -/

section Positions

/-- A byte is put back. -/
theorem ungetc_spec (hserves : w.Serves) (h : Represents w size t a) (hreads : a.reads = true)
    (hroom : a.pushed.length < unget) (hplace : a.pushed.length < a.place) {c : UInt8}
    {r : Stdio × Option UInt8} (hr : t.ungetc w c = some r) :
    r.2 = some c ∧ Represents w size r.1 { a with pushed := c :: a.pushed, eof := false } := by
  obtain ⟨q, hq, rfl⟩ := Option.map_eq_some_iff.mp hr
  obtain ⟨hagrees, room, k, hin⟩ : Agrees w size q.file a ∧ ∃ room k, Inward w q a room k := by
    by_cases hnone : t.file.reading = none
    · rw [if_pos hnone] at hq
      obtain ⟨p, hp, rfl⟩ := Option.map_eq_some_iff.mp hq
      have hahead : t.file.ahead = [] := by
        rw [IoFile.ahead, hnone]
        rfl
      obtain ⟨-, -, hagrees, room, hin⟩ := toRead_spec hserves h hahead hreads hp
      exact ⟨hagrees, room, 0, hin⟩
    · rw [if_neg hnone] at hq
      obtain rfl := Option.some.inj hq
      exact ⟨h.agrees, h.mode.resolve_left fun hout => hnone hout.reading⟩
  have hspare := hin.spare
  obtain ⟨room, rfl⟩ : ∃ n, room = n + 1 := ⟨room - 1, by omega⟩
  rw [hin.reading]
  refine ⟨rfl, ⟨rfl, hagrees.2, hagrees.3, hagrees.4, hagrees.5, hagrees.6⟩,
    .inr ⟨room, k, hin.writing, rfl, hin.le_rest, hin.under, hin.pos, ?_, ?_,
      fun heof => absurd heof Bool.false_ne_true⟩⟩
  · rw [List.length_cons]
    omega
  · rw [List.length_cons]
    exact hplace

theorem flushPending_spec (hserves : w.Serves) (h : Represents w size t a) {r : Stdio × Bool}
    (hr : t.flushPending w = some r) :
    r.2 = true ∧ r.1.file.pending = [] ∧ r.1.file.reading = t.file.reading ∧
      Represents w size r.1 a := by
  unfold Stdio.flushPending at hr
  by_cases hnone : t.file.pending = []
  · rw [if_pos hnone] at hr
    obtain rfl := Option.some.inj hr
    exact ⟨rfl, hnone, rfl, h⟩
  · rw [if_neg hnone] at hr
    obtain ⟨q, hq, rfl⟩ := Option.map_eq_some_iff.mp hr
    rcases h.mode with hout | ⟨room, k, hin⟩
    · obtain ⟨-, hfile, hagrees, hout'⟩ := hout.stdioWrite hserves h.agrees hq
      rw [Flow.write_nil] at hagrees hout'
      dsimp only
      rw [hfile] at hagrees ⊢
      exact ⟨rfl, rfl, rfl, by rwa [← hfile] at hagrees, .inl hout'⟩
    · exact absurd hin.pending hnone

/-- A seek that does not fail. -/
theorem Files.seek_eq (hserves : w.Serves) (s : Files) {target : ℕ} {off : Int} {whence : Whence}
    (hother : whence ≠ .other) (htarget : (s.base w.env w.d whence : Int) + off = target) :
    s.seek w.env w.d off whence =
      ({ s with seeks := s.seeks + 1 }.moveTo w.d target, .ok target) := by
  unfold Files.seek
  rw [hserves.seeks, htarget]
  dsimp only
  rw [if_neg (by rintro (h | h); exacts [hother h, absurd h (by omega)]), Int.toNat_natCast]

/-- Only the position and what is beneath matter. -/
theorem Inward.congr (h : Inward w t a room k) {s : Files} {a' : Flow}
    (hsame : a' = { a with eof := a'.eof, last := a'.last })
    (heof : a'.eof = true → a.eof = true) (hunder : s.under w.env w.d = t.files.under w.env w.d)
    (hpos : s.pos w.d = t.files.pos w.d) {f : IoFile} (hreading : f.reading = t.file.reading)
    (hwriting : f.writing = t.file.writing) : Inward w ⟨f, s⟩ a' room k := by
  have hfile : a'.file = a.file := by rw [hsame]
  have hplace : a'.place = a.place := by rw [hsame]
  have hpushed : a'.pushed = a.pushed := by rw [hsame]
  refine ⟨hwriting.trans h.writing, hreading.trans ?_, ?_, hunder.trans ?_, hpos.trans ?_, ?_, ?_,
    fun hend => ?_⟩
  · rw [hfile, hplace, hpushed]
    exact h.reading
  · rw [hfile, hplace]
    exact h.le_rest
  · rw [hfile]
    exact h.under
  · rw [hplace]
    exact h.pos
  · rw [hpushed]
    exact h.spare
  · rw [hplace, hpushed]
    exact h.pushed_le
  · rw [hpushed]
    exact h.ended (heof hend)

/-- Of the environment, the file and the position matter. -/
theorem Represents.files (h : Represents w size t a) {s : Files}
    (hunder : s.under w.env w.d = t.files.under w.env w.d)
    (hpos : s.pos w.d = t.files.pos w.d) : Represents w size ⟨t.file, s⟩ a := by
  refine ⟨h.agrees, h.mode.imp (fun hout => ?_) ?_⟩
  · exact @Outward.congr w t a hout a rfl s hunder hpos t.file hout.reading rfl rfl
  · rintro ⟨room, k, hin⟩
    exact ⟨room, k, @Inward.congr w t a room k hin s a rfl id hunder hpos t.file rfl rfl⟩

/-- `ftell`. -/
theorem ftell_spec (hserves : w.Serves) (h : Represents w size t a) :
    (t.ftell w).2 = some a.tell ∧ (t.ftell w).1.file = t.file ∧
      Represents w size (t.ftell w).1 a := by
  have hagrees := h.agrees
  unfold Stdio.ftell Flow.tell
  rcases h.mode with hout | ⟨room, k, hin⟩
  · have hplace : a.place = if t.file.pending = [] then t.files.pos w.d
        else (a.beneath w t.files).front + t.file.pending.length :=
      congrArg Flow.place hout.written
    by_cases hend : t.file.appends = true ∧ t.file.pending ≠ []
    · -- what is kept comes behind the end, to which the position is moved
      have happends : a.appends = true := hagrees.appends.symm.trans hend.1
      have hfront : (a.beneath w t.files).front = (t.files.under w.env w.d).size := if_pos happends
      rw [if_pos hend, Files.seek_eq hserves t.files (by decide) (Int.add_zero _), hout.reading]
      rw [if_neg hend.2, hfront] at hplace
      refine ⟨?_, rfl, hagrees, .inl ⟨hout.reading, hout.fits, ?_, hout.pushed⟩⟩
      · rw [hplace, hout.pushed]
        simp only [Files.base, List.length_nil, Nat.cast_add, Nat.cast_zero, Int.sub_zero]
      · refine hout.written.trans ?_
        simp only [Flow.write, Flow.front, Flow.beneath, happends, if_true, if_neg hend.2]
        rfl
    · rw [if_neg hend, Files.seek_eq hserves t.files (by decide) (Int.add_zero _), hout.reading]
      refine ⟨?_, rfl, h.files rfl (Files.moveTo_self _ _ _)⟩
      · rw [hplace, hout.pushed]
        have hfront : t.file.pending ≠ [] → (a.beneath w t.files).front = t.files.pos w.d :=
          fun hne => if_neg fun happends => hend ⟨hagrees.appends.trans happends, hne⟩
        split_ifs with hnone
        · rw [hnone]
          rfl
        · rw [hfront hnone]
          simp only [Files.base, List.length_nil, Nat.cast_add, Nat.cast_zero, Int.sub_zero]
  · have hnone : ¬(t.file.appends = true ∧ t.file.pending ≠ []) := fun h => h.2 hin.pending
    have hlen := hin.length_ahead
    rw [hin.ahead] at hlen
    rw [if_neg hnone, Files.seek_eq hserves t.files (by decide) (Int.add_zero _), hin.reading]
    refine ⟨?_, rfl, h.files rfl (Files.moveTo_self _ _ _)⟩
    dsimp only
    rw [hlen]
    simp only [Files.base, hin.pos, Nat.cast_add]
    congr 1
    omega

/-- A stream of which nothing is kept to be written leaves writing. -/
theorem Represents.leaveWriting (h : Represents w size t a) (hnone : t.file.pending = []) :
    Represents w size ⟨{ t.file with writing := none }, t.files⟩ a := by
  have hagrees := h.agrees
  refine ⟨⟨hagrees.1, hagrees.2, hagrees.3, hagrees.4, hagrees.5, hagrees.6⟩, ?_⟩
  rcases h.mode with hout | ⟨room, k, hin⟩
  · exact .inl (hout.congr rfl rfl rfl hout.reading hnone.symm rfl)
  · exact .inr ⟨room, k, hin.congr rfl id rfl rfl rfl hin.writing.symm⟩

/-- The position is set, and nothing is kept. -/
theorem Represents.moveTo (h : Represents w size t a) (hnone : t.file.pending = []) {n target : ℕ}
    {eof : Bool} {last : Option Direction} :
    Represents w size ⟨{ t.file with writing := none, reading := none, eof := eof },
        { t.files with seeks := n }.moveTo w.d target⟩
      { a with place := target, pushed := [], eof := eof, last := last } := by
  have hagrees := h.agrees
  have hunder : t.files.under w.env w.d = a.file := by
    rcases h.mode with hout | ⟨room, k, hin⟩
    · exact (congrArg Flow.file (hout.eq_beneath hnone)).symm
    · exact hin.under
  refine ⟨⟨rfl, hagrees.2, hagrees.3, hagrees.4, hagrees.5, hagrees.6⟩,
    .inl ⟨rfl, Nat.zero_le _, ?_, rfl⟩⟩
  refine Eq.trans ?_ (Flow.write_nil _).symm
  simp only [Flow.beneath, Files.moveTo_self, Flow.mk.injEq, and_true]
  exact hunder.symm

/-- The position that the description is at, and what is kept to be read. -/
theorem Represents.pos_sub_ahead (h : Represents w size t a) (hnone : t.file.pending = []) :
    (t.files.pos w.d : Int) - t.file.ahead.length = a.tell := by
  unfold Flow.tell
  rcases h.mode with hout | ⟨room, k, hin⟩
  · rw [hout.ahead, hout.pushed, congrArg Flow.place (hout.eq_beneath hnone)]
    rfl
  · rw [hin.length_ahead, hin.pos]
    omega

/-- `fseek`. -/
theorem fseek_spec (hserves : w.Serves) (h : Represents w size t a) {off : Int} {whence : Whence}
    {r : Stdio × Bool} (hr : t.fseek w off whence = some r) :
    r.2 = (a.seek off whence).2 ∧ Represents w size r.1 (a.seek off whence).1 ∧
      (r.1.file.reading ≠ none → t.file.reading ≠ none ∧ (a.seek off whence).1 = a) := by
  unfold Stdio.fseek at hr
  unfold Flow.seek
  by_cases hother : whence = .other
  · rw [if_pos hother] at hr
    obtain rfl := Option.some.inj hr
    rw [if_pos (.inl hother)]
    exact ⟨rfl, h, fun hne => ⟨hne, rfl⟩⟩
  rw [if_neg hother] at hr
  obtain ⟨q, hq, rfl⟩ := Option.map_eq_some_iff.mp hr
  obtain ⟨hready, hnone, hreading, hrep⟩ := flushPending_spec hserves h hq
  have hahead : q.1.file.ahead = t.file.ahead := by rw [IoFile.ahead, hreading, IoFile.ahead]
  -- the offset is the one that the program means
  have htarget : (q.1.files.base w.env w.d whence : Int) +
      (if whence = .cur then off - t.file.ahead.length else off) = a.base whence + off := by
    have htell := hrep.pos_sub_ahead hnone
    rw [hahead] at htell
    cases whence with
    | cur =>
      simp only [Files.base, Flow.base, if_true]
      omega
    | fromEnd =>
      have hunder : q.1.files.under w.env w.d = a.file := by
        rcases hrep.mode with hout | ⟨room, k, hin⟩
        · exact (congrArg Flow.file (hout.eq_beneath hnone)).symm
        · exact hin.under
      simp only [Files.base, Flow.base, hunder, reduceCtorEq, if_false]
    | set =>
      simp only [Files.base, Flow.base, reduceCtorEq, if_false, Nat.cast_zero]
    | other => exact absurd rfl hother
  rw [hready, if_neg Bool.true_eq_false.mp]
  generalize a.base whence + off = target at htarget ⊢
  dsimp only
  by_cases hneg : target < 0
  · have hseek : q.1.files.seek w.env w.d
        (if whence = .cur then off - t.file.ahead.length else off) whence =
          ({ q.1.files with seeks := q.1.files.seeks + 1 }, .error .invalid) := by
      unfold Files.seek
      rw [hserves.seeks, htarget]
      exact if_pos (.inr hneg)
    rw [hseek, if_pos (.inr hneg)]
    exact ⟨rfl, (hrep.leaveWriting hnone).files rfl rfl, fun hne => ⟨hreading ▸ hne, rfl⟩⟩
  · obtain ⟨n, rfl⟩ := Int.eq_ofNat_of_zero_le (Int.not_lt.mp hneg)
    rw [Files.seek_eq hserves q.1.files hother htarget, if_neg (by
      rintro (h | h)
      exacts [hother h, hneg h])]
    exact ⟨rfl, hrep.moveTo hnone, fun hne => absurd rfl hne⟩

/-- `fflush`. -/
theorem fflush_spec (hserves : w.Serves) (h : Represents w size t a) {r : Stdio × Bool}
    (hr : t.fflush w = some r) :
    r.2 = true ∧ r.1.file.reading = none ∧ r.1.file.pending = [] ∧
      Represents w size r.1
        { a with place := a.place - a.pushed.length, pushed := [], last := none } := by
  obtain ⟨q, hq, rfl⟩ := Option.map_eq_some_iff.mp hr
  obtain ⟨hready, hnone, -, hrep⟩ := flushPending_spec hserves h hq
  rw [hready, if_neg Bool.true_eq_false.mp]
  refine ⟨rfl, rfl, rfl, ?_⟩
  dsimp only
  have hplace : a.place - a.pushed.length = a.tell.toNat := by
    unfold Flow.tell
    omega
  by_cases hahead : q.1.file.ahead = []
  · -- nothing was kept to be read either
    obtain ⟨hsame, hpushed⟩ : a = a.beneath w q.1.files ∧ a.pushed = [] := by
      rcases hrep.mode with hout | ⟨room, k, hin⟩
      · exact ⟨hout.eq_beneath hnone, hout.pushed⟩
      · obtain ⟨hsame, hpushed, -⟩ := hin.eq_beneath hahead
        exact ⟨hsame, hpushed⟩
    have hagrees := hrep.agrees
    rw [if_pos hahead]
    refine ⟨⟨hagrees.1, hagrees.2, hagrees.3, hagrees.4, hagrees.5, hagrees.6⟩,
      .inl ⟨rfl, Nat.zero_le _, ?_, rfl⟩⟩
    refine Eq.trans ?_ (Flow.write_nil _).symm
    rw [hpushed, List.length_nil, Nat.sub_zero]
    have hfile := congrArg Flow.file hsame
    have hat := congrArg Flow.place hsame
    simp only [Flow.beneath, Flow.mk.injEq, and_true] at hfile hat ⊢
    exact ⟨hfile, hat⟩
  · obtain ⟨room, k, hin⟩ := hrep.mode.resolve_left fun hout => hahead hout.ahead
    have hle := hin.pushed_le
    have htell := hrep.pos_sub_ahead hnone
    have htarget : (q.1.files.base w.env w.d .cur : Int) + -(q.1.file.ahead.length : Int) =
        (a.tell.toNat : ℕ) := by
      unfold Flow.tell at htell ⊢
      simp only [Files.base]
      omega
    rw [if_neg hahead, Files.seek_eq hserves q.1.files (by decide) htarget, hplace,
      hrep.agrees.eof]
    exact hrep.moveTo hnone

end Positions

/-! ## Calls -/

section Calls

/-- What is written comes where nothing is kept to be read. -/
theorem Stands.ahead_nil (h : Stands w size t a)
    (hpermits : a.last = some .input → a.eof = true) : t.file.ahead = [] := by
  rcases h.mode with hout | ⟨room, k, hin⟩
  · exact hout.ahead
  · obtain ⟨hpushed, hk⟩ := hin.ended (hpermits (h.input (by rw [hin.reading]; exact nofun)))
    rw [hin.ahead, hpushed, hk, List.take_zero, List.append_nil]

/-- Of its flags, a stream may lose the end, and of the last transfer nothing matters. -/
theorem Represents.congr (h : Represents w size t a) {a' : Flow}
    (hsame : a' = { a with eof := a'.eof, last := a'.last }) (heof : a'.eof = true → a.eof = true)
    {f : IoFile} (hfile : f = { t.file with eof := f.eof, err := f.err })
    (hagrees : f.eof = a'.eof) :
    Represents w size ⟨f, t.files⟩ a' := by
  have hreading : f.reading = t.file.reading := by rw [hfile]
  have hwriting : f.writing = t.file.writing := by rw [hfile]
  have hflags := h.agrees
  refine ⟨⟨hagrees, ?_, ?_, ?_, ?_, ?_⟩, h.mode.imp (fun hout => ?_) ?_⟩
  · rw [hfile, hsame]
    exact hflags.reads
  · rw [hfile, hsame]
    exact hflags.writes
  · rw [hfile, hsame]
    exact hflags.appends
  · rw [hsame]
    exact hflags.opened
  · rw [hfile]
    exact hflags.bufSize
  · refine hout.congr hsame rfl rfl (hreading.trans hout.reading) ?_ (by rw [hfile])
    rw [IoFile.pending, IoFile.pending, hwriting]
  · rintro ⟨room, k, hin⟩
    exact ⟨room, k, hin.congr hsame heof rfl rfl hreading hwriting⟩

theorem Represents.last (h : Represents w size t a) (last : Option Direction) :
    Represents w size t { a with last := last } :=
  @Represents.congr w size t a h { a with last := last } rfl id t.file rfl h.agrees.eof

theorem itemsRead_eq (size nmemb k : ℕ) : itemsRead size nmemb k = k / size := by
  unfold itemsRead
  split_ifs with hall hsize
  · rw [hsize, Nat.div_zero]
  · rw [hall, Nat.mul_div_cancel_left _ (Nat.pos_of_ne_zero hsize)]
  · rfl

/-- **A call** of a buffered stream answers what the stream that it stands for answers. -/
theorem Stands.call (hserves : w.Serves) (h : Stands w size t a) {c : StdioCall}
    (hpermits : a.Permits c) {r : Stdio × StdioAnswer} (hr : t.call w c = some r) :
    r.2 = (a.call c).2 ∧ Stands w size r.1 (a.call c).1 := by
  cases c with
  | fwrite size nmemb src =>
    obtain ⟨hwrites, hafter, hlen⟩ := hpermits
    obtain ⟨q, hq, rfl⟩ := Option.map_eq_some_iff.mp hr
    obtain ⟨hcount, hreading, hrep⟩ :=
      fwritex_spec hserves h.toRepresents (h.ahead_nil hafter) hwrites hq
    refine ⟨?_, hrep.last _, fun hne => absurd hreading hne⟩
    dsimp only [Flow.call]
    rw [hcount, hlen, itemsRead, if_pos rfl]
  | putc c =>
    obtain ⟨hwrites, hafter⟩ := hpermits
    obtain ⟨q, hq, rfl⟩ := Option.map_eq_some_iff.mp hr
    obtain ⟨hput, hreading, hrep⟩ :=
      putc_spec hserves h.toRepresents (h.ahead_nil hafter) hwrites hq
    refine ⟨?_, hrep.last _, fun hne => absurd hreading hne⟩
    dsimp only [Flow.call]
    rw [hput]
  | fread size nmemb =>
    obtain ⟨q, hq, rfl⟩ := Option.map_eq_some_iff.mp hr
    obtain ⟨hbytes, hrep⟩ := freadBytes_spec hserves h.toRepresents hpermits hq
    refine ⟨?_, hrep.last _, fun _ => rfl⟩
    dsimp only [Flow.call]
    rw [hbytes, itemsRead_eq]
  | getc =>
    obtain ⟨q, hq, rfl⟩ := Option.map_eq_some_iff.mp hr
    rw [getc_eq_fread] at hq
    obtain ⟨p, hp, rfl⟩ := Option.map_eq_some_iff.mp hq
    obtain ⟨hbytes, hrep⟩ := freadBytes_spec hserves h.toRepresents hpermits hp
    refine ⟨?_, hrep.last _, fun _ => rfl⟩
    dsimp only [Flow.call]
    rw [hbytes]
  | ungetc c =>
    obtain ⟨hreads, hroom, hplace⟩ := hpermits
    obtain ⟨q, hq, rfl⟩ := Option.map_eq_some_iff.mp hr
    obtain ⟨hput, hrep⟩ := ungetc_spec hserves h.toRepresents hreads hroom hplace hq
    refine ⟨?_, hrep.last _, fun _ => rfl⟩
    dsimp only [Flow.call]
    rw [hput]
  | fseek off whence =>
    obtain ⟨q, hq, rfl⟩ := Option.map_eq_some_iff.mp hr
    obtain ⟨hok, hrep, hreading⟩ := fseek_spec hserves h.toRepresents hq
    refine ⟨?_, hrep, fun hne => ?_⟩
    · dsimp only [Flow.call]
      rw [hok]
    · obtain ⟨hbefore, hsame⟩ := hreading hne
      rw [Flow.call, hsame]
      exact h.input hbefore
  | rewind =>
    obtain ⟨q, hq, rfl⟩ := Option.map_eq_some_iff.mp hr
    obtain ⟨-, hrep, hreading⟩ := fseek_spec hserves h.toRepresents hq
    refine ⟨rfl, hrep.congr rfl id rfl hrep.agrees.eof, fun hne => ?_⟩
    obtain ⟨hbefore, hsame⟩ := hreading hne
    rw [Flow.call, hsame]
    exact h.input hbefore
  | ftell =>
    obtain rfl := Option.some.inj hr
    obtain ⟨hplace, hfile, hrep⟩ := ftell_spec hserves h.toRepresents
    refine ⟨?_, hrep, fun hne => h.input ?_⟩
    · dsimp only [Flow.call]
      rw [hplace]
    · rwa [hfile] at hne
  | fflush =>
    obtain ⟨q, hq, rfl⟩ := Option.map_eq_some_iff.mp hr
    obtain ⟨hok, hreading, -, hrep⟩ := fflush_spec hserves h.toRepresents hq
    refine ⟨?_, hrep, fun hne => absurd hreading hne⟩
    dsimp only [Flow.call]
    rw [hok]
  | clearerr =>
    obtain rfl := Option.some.inj hr
    refine ⟨rfl, ?_, h.input⟩
    exact h.toRepresents.congr rfl (fun heof => absurd heof Bool.false_ne_true) rfl rfl

end Calls

/-! ## Runs -/

section Runs

theorem Represents.pending_le (h : Represents w size t a) : t.file.pending.length ≤ size := by
  rw [← h.agrees.bufSize]
  rcases h.mode with hout | ⟨room, k, hin⟩
  · exact hout.fits
  · rw [hin.pending]
    exact Nat.zero_le _

theorem Represents.pushed_le (h : Represents w size t a) : a.pushed.length ≤ a.place := by
  rcases h.mode with hout | ⟨room, k, hin⟩
  · rw [hout.pushed]
    exact Nat.zero_le _
  · exact hin.pushed_le

/-- The file beneath, with what is kept to be written, is the file. -/
theorem Represents.file_eq (h : Represents w size t a) :
    (t.files.under w.env w.d).write (t.files.front w.env w.d) t.file.pending = a.file := by
  rcases h.mode with hout | ⟨room, k, hin⟩
  · rw [congrArg Flow.file hout.written, Files.front, h.agrees.opened]
    rfl
  · rw [hin.pending, FileBytes.write_nil, hin.under]

theorem stands_opened (w : StdioEnv) (s : Files) (reads writes : Bool) (bufSize : ℕ)
    (lbf : Option UInt8) :
    Stands w bufSize (.opened w s reads writes bufSize lbf) (.opened w s reads writes) where
  agrees := ⟨rfl, rfl, rfl, rfl, rfl, rfl⟩
  mode := .inl ⟨rfl, Nat.zero_le _, (Flow.write_nil _).symm, rfl⟩
  input hne := absurd rfl hne

theorem Stands.calls (hserves : w.Serves) (h : Stands w size t a) {cs : List StdioCall}
    (hpermits : a.PermitsAll cs) {r : Stdio × List StdioAnswer} (hr : t.calls w cs = some r) :
    r.2 = (a.calls cs).2 ∧ Stands w size r.1 (a.calls cs).1 := by
  induction cs generalizing t a r with
  | nil =>
    obtain rfl := Option.some.inj hr
    exact ⟨rfl, h⟩
  | cons c cs ih =>
    obtain ⟨q, hq, hthen⟩ := Option.bind_eq_some_iff.mp hr
    obtain ⟨p, hp, rfl⟩ := Option.map_eq_some_iff.mp hthen
    obtain ⟨hanswer, hstands⟩ := h.call hserves hpermits.1 hq
    obtain ⟨hanswers, hend⟩ := ih hstands hpermits.2 hp
    exact ⟨congrArg₂ List.cons hanswer hanswers, hend⟩

theorem Stands.calls_return (hserves : w.Serves) (hadvances : w.env.Advances)
    (h : Stands w size t a) {cs : List StdioCall} (hpermits : a.PermitsAll cs)
    (hfuel : ∀ c ∈ cs, size + c.given < w.fuel) : (t.calls w cs).isSome := by
  induction cs generalizing t a with
  | nil => rfl
  | cons c cs ih =>
    have hle := h.toRepresents.pending_le
    have hc := hfuel c List.mem_cons_self
    obtain ⟨q, hq⟩ := Option.isSome_iff_exists.mp
      (Stdio.call_returns hadvances (t := t) (c := c) (by omega))
    obtain ⟨-, hstands⟩ := h.call hserves hpermits.1 hq
    rw [Stdio.calls, hq, Option.bind_some, Option.isSome_map]
    exact ih hstands hpermits.2 fun c hc => hfuel c (List.mem_cons_of_mem _ hc)

/-- **A buffered stream is its file.** However large the buffer, and however the environment cuts
its transfers, each call that C allows answers what it would if it went to the file at once; the
file beneath, with what is kept, is at all times the file that the program has written, and after
`fflush` nothing is kept. Where each transfer moves something, the calls return. -/
theorem stream_is_its_file (hserves : w.Serves) (s : Files) (reads writes : Bool) (bufSize : ℕ)
    (lbf : Option UInt8) {cs : List StdioCall}
    (hpermits : (Flow.opened w s reads writes).PermitsAll cs) :
    (∀ t answers, (Stdio.opened w s reads writes bufSize lbf).calls w cs = some (t, answers) →
      answers = ((Flow.opened w s reads writes).calls cs).2 ∧
      (t.files.under w.env w.d).write (t.files.front w.env w.d) t.file.pending =
        ((Flow.opened w s reads writes).calls cs).1.file ∧
      ∀ u, t.fflush w = some u →
        u.2 = true ∧
          u.1.files.under w.env w.d = ((Flow.opened w s reads writes).calls cs).1.file ∧
          (u.1.files.pos w.d : Int) = ((Flow.opened w s reads writes).calls cs).1.tell) ∧
    (w.env.Advances → (∀ c ∈ cs, bufSize + c.given < w.fuel) →
      ((Stdio.opened w s reads writes bufSize lbf).calls w cs).isSome) := by
  have hstart := stands_opened w s reads writes bufSize lbf
  refine ⟨fun t answers hrun => ?_, fun hadvances hfuel =>
    hstart.calls_return hserves hadvances hpermits hfuel⟩
  obtain ⟨hanswers, hstands⟩ := hstart.calls hserves hpermits hrun
  refine ⟨hanswers, hstands.toRepresents.file_eq, fun u hu => ?_⟩
  obtain ⟨hok, hreading, hnone, hrep⟩ := fflush_spec hserves hstands.toRepresents hu
  have hfile := hrep.file_eq
  rw [hnone, FileBytes.write_nil] at hfile
  refine ⟨hok, hfile, ?_⟩
  have hplace := hrep.pos_sub_ahead hnone
  rw [IoFile.ahead, hreading] at hplace
  have hle := hstands.toRepresents.pushed_le
  unfold Flow.tell at hplace ⊢
  simp only [Option.map_none, Option.getD_none, List.length_nil] at hplace
  omega

/-- An environment that moves no more than two bytes at a time. -/
def twoBytes : FileEnv where
  fileOf := fun _ => 0
  appends := fun _ => false
  answer := fun _ => .moves 2
  seekFails := fun _ => none
  bounded := false

/-- A stream over it, of which a call may ask twenty times. -/
def twoBytesStream : StdioEnv := ⟨twoBytes, ⟨3, Nat.le_of_ble_eq_true rfl⟩, false, 20⟩

/-- The first byte is read and put back as another, and after the second the rest is written over,
in more bytes than the buffer holds. -/
def rewriting : List StdioCall :=
  [.getc, .ungetc 9, .ftell, .fread 2 1, .fseek 0 .cur, .fwrite 3 2 [1, 2, 3, 4, 5, 6], .putc 7,
    .ftell, .fseek (-2) .fromEnd, .fread 1 8]

theorem stream_is_its_file_rewriting :
    ∃ t, (Stdio.opened twoBytesStream fiveBytes true true 4 (some 10)).calls twoBytesStream
        rewriting = some (t, [.byte (some 11), .byte (some 9), .place (some 1), .items 1 [9, 12],
          .status true, .items 2 [], .byte (some 7), .place (some 10), .status true,
          .items 2 [6, 7]]) ∧
      ((t.files.under twoBytes twoBytesStream.d).write (t.files.front twoBytes twoBytesStream.d)
        t.file.pending).rest 0 = [10, 11, 12, 1, 2, 3, 4, 5, 6, 7] := by
  have hrun := @stream_is_its_file twoBytesStream ⟨fun _ => ⟨2, rfl⟩, fun _ => rfl, rfl⟩ fiveBytes
    true true 4 (some 10) rewriting (by decide +kernel)
  have hmoves : twoBytesStream.env.Advances := fun n most hmost => by
    obtain rfl := FileAnswer.moves.inj hmost
    exact Nat.two_pos
  obtain ⟨⟨t, answers⟩, ht⟩ := Option.isSome_iff_exists.mp (hrun.2 hmoves (by decide +kernel))
  obtain ⟨rfl, hfile, -⟩ := hrun.1 t answers ht
  have hanswers : ((Flow.opened twoBytesStream fiveBytes true true).calls rewriting).2 =
      [.byte (some 11), .byte (some 9), .place (some 1), .items 1 [9, 12], .status true,
        .items 2 [], .byte (some 7), .place (some 10), .status true, .items 2 [6, 7]] := by
    decide +kernel
  have hbytes : ((Flow.opened twoBytesStream fiveBytes true true).calls rewriting).1.file.rest 0 =
      [10, 11, 12, 1, 2, 3, 4, 5, 6, 7] := by
    decide +kernel
  rw [hanswers] at ht
  refine ⟨t, ht, ?_⟩
  rw [← hbytes]
  exact congrArg (FileBytes.rest · 0) hfile

end Runs

end OpenkalMusl
