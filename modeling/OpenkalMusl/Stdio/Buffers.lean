import OpenkalMusl.Stdio.Flow

/-!
# The transfers of a stream

What `__stdio_write` and `__stdio_read` leave of a file and of a buffer, whatever the environment
moves in each transfer and whichever fails; and that the calls return where each transfer moves
something.

## Main results

* `stdioWrite_spec`: what `__stdio_write` has written is what it counts
* `stdioRead_spec`: what `__stdio_read` has read beyond what it answers is kept
* `Stdio.call_returns`: the calls return
* `fwritex_counts`: what `fwrite` counts, where a transfer fails
-/

namespace OpenkalMusl

/-! ## The transfers of a stream -/

variable {w : StdioEnv}

/-- The loop of `__stdio_write`. What has been written is the beginning of what is left of the two
buffers; where a transfer fails, what is counted of the second is what of it has been written. -/
theorem stdioWriteLoop_spec {fuel : ℕ} {s : Files} {first : List UInt8}
    {second : Option (List UInt8)} {len : ℕ}
    (hlen : match second with | some b => len = b.length | none => first.length ≤ len)
    {r : Files × Except ℕ Unit} (h : stdioWriteLoop w fuel s first second len = some r) :
    ∃ m ≤ (first ++ second.getD []).length,
      Wrote w.env w.d s r.1 ((first ++ second.getD []).take m) ∧
        ((r.2 = .ok () ∧ m = (first ++ second.getD []).length) ∨
          (r.2 = .error (if second.isSome then m - first.length else len - first.length + m) ∧
            m < (first ++ second.getD []).length)) := by
  induction fuel generalizing s first second with
  | zero => cases h
  | succ fuel ih =>
    unfold stdioWriteLoop at h
    obtain ⟨got, hgot⟩ := @transferStream_writes w.env w.nonblock w.d (first :: second.toList) s
    have hflat : (first :: second.toList).flatten = first ++ second.getD [] := by
      cases second with
      | none => rfl
      | some b => simp only [Option.toList_some, List.flatten_cons, List.flatten_nil,
          List.append_nil, Option.getD_some]
    rw [hflat] at hgot
    have hempty : first ++ second.getD [] = [] →
        (transferStream w.env w.nonblock true w.d (first :: second.toList) s).result = .ok 0 :=
      fun hnil => transferLoop_empty _ (hflat.trans hnil) s 0
    dsimp only at h
    generalize transferStream w.env w.nonblock true w.d (first :: second.toList) s = t
      at h hgot hempty
    have hle := hgot.length_le
    have hwrote : Wrote w.env w.d s t.files ((first ++ second.getD []).take got.length) := by
      rw [hgot.held]
      exact hgot.moved
    rcases hgot.result_eq with hok | ⟨-, rfl, e, herror⟩
    · rw [Nat.zero_add] at hok
      rw [hok] at h
      dsimp only at h
      by_cases hall : got.length = first.length + (second.getD []).length
      · rw [if_pos hall] at h
        obtain rfl := Option.some.inj h
        refine ⟨got.length, hle, hwrote, .inl ⟨rfl, ?_⟩⟩
        rw [hall, List.length_append]
      rw [if_neg hall] at h
      -- what is left goes on behind what was written
      have hrest : ∀ {first' second'}, first' ++ Option.getD second' [] =
            (first ++ second.getD []).drop got.length →
          ∀ {m}, m ≤ (first' ++ Option.getD second' []).length →
          Wrote w.env w.d t.files r.1 ((first' ++ Option.getD second' []).take m) →
          got.length + m ≤ (first ++ second.getD []).length ∧
            Wrote w.env w.d s r.1 ((first ++ second.getD []).take (got.length + m)) := by
        intro first' second' heq m hm hthen
        rw [heq] at hm hthen
        rw [List.length_drop] at hm
        refine ⟨by omega, ?_⟩
        rw [List.take_add]
        exact hwrote.trans hthen
      by_cases hfirst : got.length > first.length
      · rw [if_pos hfirst] at h
        obtain ⟨b, rfl⟩ : ∃ b, second = some b := by
          cases second with
          | none =>
            simp only [Option.getD_none, List.append_nil] at hle
            omega
          | some b => exact ⟨b, rfl⟩
        obtain rfl : len = b.length := hlen
        simp only [Option.getD_some] at hle hrest h ⊢
        obtain ⟨m, hm, hthen, hresult⟩ := @ih _ _ none
          (by simp only [List.length_drop]; omega) h
        have heq : b.drop (got.length - first.length) ++ Option.getD none [] =
            (first ++ b).drop got.length := by
          rw [Option.getD_none, List.append_nil, List.drop_append,
            List.drop_eq_nil_of_le hfirst.le, List.nil_append]
        obtain ⟨hbound, hboth⟩ := hrest heq hm hthen
        refine ⟨got.length + m, hbound, hboth, hresult.imp ?_ ?_⟩
        · rintro ⟨hdone, rfl⟩
          refine ⟨hdone, ?_⟩
          rw [heq, List.length_drop]
          omega
        · rintro ⟨herror, hless⟩
          have hdrop : (b.drop (got.length - first.length)).length =
              b.length - (got.length - first.length) := List.length_drop
          rw [heq, List.length_drop] at hless
          refine ⟨?_, by omega⟩
          rw [List.length_append] at hle
          simp only [Option.isSome_none, Bool.false_eq_true, if_false] at herror
          rw [herror, Option.isSome_some, if_pos rfl]
          congr 1
          omega
      · rw [if_neg hfirst] at h
        obtain ⟨m, hm, hthen, hresult⟩ := @ih _ _ second (by
          cases second with
          | none =>
            dsimp only at hlen ⊢
            rw [List.length_drop]
            omega
          | some b => exact hlen) h
        have heq : first.drop got.length ++ second.getD [] =
            (first ++ second.getD []).drop got.length :=
          (List.drop_append_of_le_length (by omega)).symm
        obtain ⟨hbound, hboth⟩ := hrest heq hm hthen
        refine ⟨got.length + m, hbound, hboth, hresult.imp ?_ ?_⟩
        · rintro ⟨hdone, rfl⟩
          refine ⟨hdone, ?_⟩
          rw [heq, List.length_drop]
          omega
        · rintro ⟨herror, hless⟩
          rw [heq, List.length_drop] at hless
          refine ⟨?_, by omega⟩
          rw [herror, List.length_drop]
          congr 1
          cases second with
          | none =>
            dsimp only at hlen
            simp only [Option.isSome_none, Bool.false_eq_true, if_false]
            omega
          | some b =>
            simp only [Option.isSome_some, if_true]
            omega
    · rw [herror] at h
      obtain rfl := Option.some.inj h
      refine ⟨0, Nat.zero_le _, hgot.moved, .inr ⟨?_, ?_⟩⟩
      · rw [Nat.zero_sub, Nat.add_zero]
      · -- of nothing, no transfer fails
        refine List.length_pos_iff.mpr fun hnil => ?_
        rw [hempty hnil] at herror
        cases herror

/-- What has been written is the beginning of what was kept and what is given, and of the latter it
is what is counted; where it is not all, nothing more is kept, and the error is noted. -/
theorem stdioWrite_spec {t : Stdio} {buf : List UInt8} {r : Stdio × ℕ}
    (h : stdioWrite w t buf = some r) :
    ∃ m ≤ (t.file.pending ++ buf).length,
      Wrote w.env w.d t.files r.1.files ((t.file.pending ++ buf).take m) ∧
        ((r.1.file = { t.file with writing := some [] } ∧ r.2 = buf.length ∧
            m = (t.file.pending ++ buf).length) ∨
          (r.1.file = { t.file with writing := none, err := true } ∧
            r.2 = m - t.file.pending.length ∧ m < (t.file.pending ++ buf).length)) := by
  obtain ⟨q, hq, rfl⟩ := Option.map_eq_some_iff.mp h
  obtain ⟨m, hm, hwrote, hresult⟩ := @stdioWriteLoop_spec w _ _ _ (some buf) _ rfl _ hq
  refine ⟨m, hm, ?_⟩
  rcases hresult with ⟨hok, hall⟩ | ⟨herror, hless⟩
  · rw [hok]
    exact ⟨hwrote, .inl ⟨rfl, rfl, hall⟩⟩
  · rw [herror]
    exact ⟨hwrote, .inr ⟨rfl, rfl, hless⟩⟩

/-- What the environment is asked for, it does, and the calls of the stream wait for it. -/
def StdioEnv.Serves (w : StdioEnv) : Prop := w.env.Serves w.nonblock

theorem stdioWriteLoop_ok (hserves : w.Serves) {fuel : ℕ} {s : Files} {first : List UInt8}
    {second : Option (List UInt8)} {len : ℕ} {r : Files × Except ℕ Unit}
    (h : stdioWriteLoop w fuel s first second len = some r) : r.2 = .ok () := by
  induction fuel generalizing s first second with
  | zero => cases h
  | succ fuel ih =>
    unfold stdioWriteLoop at h
    obtain ⟨n, hn⟩ := FileEnv.Serves.transferStream_ok (d := w.d) hserves true
      (first :: second.toList) s
    dsimp only at h
    rw [hn] at h
    dsimp only at h
    split_ifs at h with hall hfirst
    · obtain rfl := Option.some.inj h
      rfl
    · exact ih h
    · exact ih h

/-- All that was kept and is given is written, where nothing fails. -/
theorem stdioWrite_all (hserves : w.Serves) {t : Stdio} {buf : List UInt8} {r : Stdio × ℕ}
    (h : stdioWrite w t buf = some r) :
    Wrote w.env w.d t.files r.1.files (t.file.pending ++ buf) ∧
      r.1.file = { t.file with writing := some [] } ∧ r.2 = buf.length := by
  obtain ⟨m, -, hwrote, ⟨hfile, hcount, rfl⟩ | ⟨hfile, -⟩⟩ := stdioWrite_spec h
  · rw [List.take_length] at hwrote
    exact ⟨hwrote, hfile, hcount⟩
  · -- the loop has not failed
    obtain ⟨q, hq, rfl⟩ := Option.map_eq_some_iff.mp h
    rw [stdioWriteLoop_ok hserves hq] at hfile
    cases congrArg IoFile.writing hfile

/-- **The loop ends** where each transfer moves something. -/
theorem stdioWriteLoop_returns (hadvances : w.env.Advances) {fuel : ℕ} {s : Files}
    {first : List UInt8} {second : Option (List UInt8)} {len : ℕ}
    (hfuel : (first ++ second.getD []).length < fuel) :
    (stdioWriteLoop w fuel s first second len).isSome := by
  induction fuel generalizing s first second with
  | zero => omega
  | succ fuel ih =>
    unfold stdioWriteLoop
    obtain ⟨got, hgot⟩ := @transferStream_writes w.env w.nonblock w.d (first :: second.toList) s
    have hflat : (first :: second.toList).flatten = first ++ second.getD [] := by
      cases second with
      | none => rfl
      | some b => simp only [Option.toList_some, List.flatten_cons, List.flatten_nil,
          List.append_nil, Option.getD_some]
    rw [hflat] at hgot
    dsimp only
    generalize transferStream w.env w.nonblock true w.d (first :: second.toList) s = t at hgot
    have hle := hgot.length_le
    rw [List.length_append] at hle hfuel
    rcases hgot.result_eq with hok | ⟨-, -, e, herror⟩
    · rw [Nat.zero_add] at hok
      rw [hok]
      dsimp only
      by_cases hall : got.length = first.length + (second.getD []).length
      · rw [if_pos hall]
        rfl
      -- something was moved, so that less is left
      have hpos : 0 < got.length := by
        by_contra hzero
        have hnone : got.length = 0 := Nat.eq_zero_of_not_pos hzero
        refine hgot.progress (hok.trans (congrArg _ hnone)) (fun hnil => hall ?_) hadvances
        rw [hnone, ← List.length_append, hnil, List.length_nil]
      rw [if_neg hall]
      by_cases hfirst : got.length > first.length
      · rw [if_pos hfirst]
        refine ih ?_
        rw [Option.getD_none, List.append_nil, List.length_drop]
        omega
      · rw [if_neg hfirst]
        refine ih ?_
        rw [List.length_append, List.length_drop]
        omega
    · rw [herror]
      rfl

theorem stdioFill_ok (hserves : w.Serves) {t : Stdio} {want : ℕ}
    (hroom : want ≠ 0 ∨ t.file.bufSize ≠ 0) :
    ∃ got, (stdioFill w t want).2 = .ok got ∧ got.length ≤ want + t.file.bufSize ∧
      Took w.env w.d t.files (stdioFill w t want).1 got ∧
      (got = [] → (t.files.under w.env w.d).rest (t.files.pos w.d) = []) := by
  unfold stdioFill
  by_cases hwant : want = 0
  · rw [if_neg (not_not_intro hwant)]
    have hbuf : t.file.bufSize ≠ 0 := hroom.resolve_left (not_not_intro hwant)
    rcases @doReadFile_moves w.env w.nonblock w.d t.files _ hbuf with
      ⟨got, htook, hlen, hok, hend⟩ | ⟨-, e, herror⟩
    · exact ⟨got, hok, by omega, htook, hend⟩
    · obtain ⟨n, hn⟩ := FileEnv.Serves.moveStream_ok (d := w.d) hserves false t.files
        (List.replicate t.file.bufSize 0)
      unfold moveStream at hn
      rw [if_neg Bool.false_ne_true, List.length_replicate] at hn
      generalize doReadFile w.env w.nonblock t.files w.d t.file.bufSize = q at herror hn
      obtain ⟨s', result⟩ := q
      obtain rfl : result = .error e := herror
      cases hn
  · rw [if_pos hwant]
    dsimp only
    obtain ⟨got, hgot⟩ := @transferStream_reads w.env w.nonblock w.d
      [List.replicate want 0, List.replicate t.file.bufSize 0] t.files
    obtain ⟨n, hn⟩ := FileEnv.Serves.transferStream_ok (d := w.d) hserves false
      [List.replicate want 0, List.replicate t.file.bufSize 0] t.files
    have hflat : [List.replicate want (0 : UInt8), List.replicate t.file.bufSize 0].flatten.length =
        want + t.file.bufSize := by
      simp only [List.flatten_cons, List.flatten_nil, List.append_nil, List.length_append,
        List.length_replicate]
    rcases hgot.result_eq with hok | ⟨-, -, e, herror⟩
    · rw [Nat.zero_add] at hok
      refine ⟨got, ?_, ?_, hgot.moved, fun hnil => hgot.progress ?_ fun hnone => ?_⟩
      · rw [hok]
        exact congrArg Except.ok hgot.held
      · rw [← hflat]
        exact hgot.length_le
      · rw [hok, hnil, List.length_nil]
      · rw [hnone, List.length_nil] at hflat
        omega
    · rw [hn] at herror
      cases herror

/-- What `__stdio_read` leaves behind what it answers is kept to be read; it answers nothing where
there is nothing. -/
theorem stdioRead_spec (hserves : w.Serves) {t : Stdio} {len : ℕ} (hlen : len ≠ 0) :
    ∃ kept, Took w.env w.d t.files (stdioRead w t len).1.files ((stdioRead w t len).2 ++ kept) ∧
      (stdioRead w t len).2.length ≤ len ∧
      ((stdioRead w t len).2 = [] ∧ kept = [] ∧
          (t.files.under w.env w.d).rest (t.files.pos w.d) = [] ∧
          (stdioRead w t len).1.file = { t.file with eof := true } ∨
        (stdioRead w t len).2 ≠ [] ∧ kept = [] ∧ (stdioRead w t len).1.file = t.file ∨
        (stdioRead w t len).2.length = len ∧
          (stdioRead w t len).1.file = { t.file with reading := some (unget + 1, kept) }) := by
  unfold stdioRead
  generalize hwant : len - (if t.file.bufSize = 0 then 0 else 1) = want
  have hroom : want ≠ 0 ∨ t.file.bufSize ≠ 0 := by
    by_cases hbuf : t.file.bufSize = 0
    · rw [if_pos hbuf] at hwant
      exact .inl (by omega)
    · exact .inr hbuf
  obtain ⟨got, hok, hle, htook, hend⟩ := stdioFill_ok hserves hroom
  dsimp only
  rw [hok]
  cases got with
  | nil => exact ⟨[], htook, Nat.zero_le _, .inl ⟨rfl, rfl, hend rfl, rfl⟩⟩
  | cons c got =>
    dsimp only
    by_cases hshort : (c :: got).length ≤ want
    · rw [if_pos hshort]
      refine ⟨[], ?_, ?_, .inr (.inl ⟨List.cons_ne_nil c got, rfl, rfl⟩)⟩
      · rw [List.append_nil]
        exact htook
      · dsimp only
        omega
    · -- the last byte asked for comes from the stream's buffer
      rw [if_neg hshort]
      have hbuf : t.file.bufSize ≠ 0 := by omega
      rw [if_neg hbuf] at hwant
      have htake : ((c :: got).take (want + 1)).length = len := by
        rw [List.length_take]
        omega
      refine ⟨(c :: got).drop (want + 1), ?_, htake.le, .inr (.inr ⟨htake, rfl⟩)⟩
      dsimp only
      rw [List.take_append_drop]
      exact htook

/-- `getc` is `fread` of a byte. -/
theorem getc_eq_fread {t : Stdio} :
    t.getc w = (t.freadBytes w 1).map fun r => (r.1, r.2.head?) := by
  unfold Stdio.getc Stdio.freadBytes
  cases hahead : t.file.ahead with
  | cons c rest => rfl
  | nil =>
    have hpop : t.pop 0 = t := by
      unfold Stdio.pop
      cases hreading : t.file.reading with
      | none =>
        rw [Option.map_none, ← hreading]
      | some r =>
        rw [Option.map_some, Nat.zero_min, Nat.add_zero, List.drop_zero, ← hreading]
    dsimp only
    rw [List.take_nil, List.length_nil, hpop]
    unfold Stdio.freadLoop
    rw [Nat.sub_zero, if_neg Nat.one_ne_zero, Option.map_map]
    cases t.toRead w with
    | none => rfl
    | some q =>
      rw [Option.map_some, Option.bind_some]
      by_cases hready : q.2 = false
      · rw [if_pos hready, if_pos hready]
        rfl
      · rw [if_neg hready, if_neg hready]
        dsimp only
        by_cases hnil : (stdioRead w q.1 1).2 = []
        · rw [if_pos hnil, hnil]
          rfl
        · rw [if_neg hnil]
          simp only [Stdio.freadLoop, Option.map_some, Function.comp_apply, List.nil_append,
            List.append_nil]

theorem lineEnd_le (s : List UInt8) (i : ℕ) : lineEnd s i ≤ i := by
  induction i with
  | zero => exact Nat.le_refl 0
  | succ i ih =>
    unfold lineEnd
    split_ifs
    · exact Nat.le_refl _
    · exact ih.trans (Nat.le_succ i)

/-! ## Calls return -/

section Returns

/-- How many bytes a call is given. -/
def StdioCall.given : StdioCall → ℕ
  | .fwrite _ _ src => src.length
  | .putc _ => 1
  | _ => 0

theorem stdioWrite_returns (hadvances : w.env.Advances) {t : Stdio} {buf : List UInt8}
    (hfuel : t.file.pending.length + buf.length < w.fuel) : (stdioWrite w t buf).isSome := by
  rw [stdioWrite, Option.isSome_map]
  refine stdioWriteLoop_returns hadvances ?_
  rwa [Option.getD_some, List.length_append]

theorem toRead_returns (hadvances : w.env.Advances) {t : Stdio}
    (hfuel : t.file.pending.length < w.fuel) : (t.toRead w).isSome := by
  rw [Stdio.toRead, Option.isSome_map]
  split_ifs
  · rfl
  · rw [Option.isSome_map]
    exact stdioWrite_returns hadvances hfuel

theorem freadLoop_returns (hadvances : w.env.Advances) {n : ℕ} {t : Stdio} {l : ℕ}
    (hfuel : t.file.pending.length < w.fuel) : (t.freadLoop w n l).isSome := by
  induction n generalizing t l with
  | zero => rfl
  | succ n ih =>
    unfold Stdio.freadLoop
    by_cases hlen : l = 0
    · rw [if_pos hlen]
      rfl
    rw [if_neg hlen]
    obtain ⟨q, hq⟩ := Option.isSome_iff_exists.mp (toRead_returns hadvances hfuel)
    -- what has been made ready keeps nothing to be written
    have hready : q.1.file.writing = none := by
      obtain ⟨p, -, rfl⟩ := Option.map_eq_some_iff.mp hq
      split_ifs <;> rfl
    rw [hq, Option.bind_some]
    by_cases hnot : q.2 = false
    · rw [if_pos hnot]
      rfl
    rw [if_neg hnot]
    dsimp only
    split_ifs
    · rfl
    · rw [Option.isSome_map]
      refine ih ?_
      have hstill : (stdioRead w q.1 l).1.file.writing = none := by
        unfold stdioRead
        dsimp only
        split
        · exact hready
        · exact hready
        · split_ifs <;> exact hready
      rw [IoFile.pending, hstill]
      exact Nat.zero_lt_of_lt hfuel

theorem toWrite_pending {f : IoFile} {g : IoFile × Bool}
    (hg : (if f.writing = none then f.toWrite else (f, true)) = g) : g.1.pending = f.pending := by
  subst hg
  split_ifs with hnone
  · unfold IoFile.toWrite
    split_ifs
    · rfl
    · rw [IoFile.pending, IoFile.pending, hnone]
      rfl
  · rfl

theorem fwritex_returns (hadvances : w.env.Advances) {t : Stdio} {s : List UInt8}
    (hfuel : t.file.pending.length + s.length < w.fuel) : (t.fwritex w s).isSome := by
  unfold Stdio.fwritex
  generalize hg : (if t.file.writing = none then t.file.toWrite else (t.file, true)) = g
  rw [← toWrite_pending hg] at hfuel
  dsimp only
  by_cases hready : g.2 = false
  · rw [if_pos hready]
    rfl
  rw [if_neg hready]
  generalize (if g.1.lbf.isSome = true then lineEnd s s.length else 0) = i
  split_ifs
  · exact stdioWrite_returns hadvances hfuel
  · rfl
  · rw [Option.isSome_map]
    refine stdioWrite_returns hadvances ?_
    dsimp only
    rw [List.length_take]
    omega

theorem putc_returns (hadvances : w.env.Advances) {t : Stdio} {c : UInt8}
    (hfuel : t.file.pending.length + 1 < w.fuel) : (t.putc w c).isSome := by
  unfold Stdio.putc Stdio.overflow
  generalize hg : (if t.file.writing = none then t.file.toWrite else (t.file, true)) = g
  have hpending := toWrite_pending hg
  dsimp only
  split_ifs
  · rfl
  · rfl
  · rfl
  · rw [Option.isSome_map]
    refine stdioWrite_returns hadvances ?_
    dsimp only
    rwa [hpending]

theorem flushPending_returns (hadvances : w.env.Advances) {t : Stdio}
    (hfuel : t.file.pending.length < w.fuel) : (t.flushPending w).isSome := by
  unfold Stdio.flushPending
  split_ifs
  · rfl
  · rw [Option.isSome_map]
    exact stdioWrite_returns hadvances hfuel

/-- **A call returns** where each transfer moves something. -/
theorem Stdio.call_returns (hadvances : w.env.Advances) {t : Stdio} {c : StdioCall}
    (hfuel : t.file.pending.length + c.given < w.fuel) : (t.call w c).isSome := by
  cases c with
  | fwrite size nmemb src =>
    rw [Stdio.call, Option.isSome_map]
    exact fwritex_returns hadvances hfuel
  | putc c =>
    rw [Stdio.call, Option.isSome_map]
    exact putc_returns hadvances hfuel
  | fread size nmemb =>
    rw [Stdio.call, Option.isSome_map, Stdio.freadBytes, Option.isSome_map]
    exact freadLoop_returns hadvances hfuel
  | getc =>
    rw [Stdio.call, Option.isSome_map, getc_eq_fread, Option.isSome_map, Stdio.freadBytes,
      Option.isSome_map]
    exact freadLoop_returns hadvances hfuel
  | ungetc c =>
    rw [Stdio.call, Option.isSome_map, Stdio.ungetc, Option.isSome_map]
    split_ifs
    · rw [Option.isSome_map]
      exact toRead_returns hadvances hfuel
    · rfl
  | fseek off whence =>
    rw [Stdio.call, Option.isSome_map, Stdio.fseek]
    by_cases hother : whence = .other
    · rw [if_pos hother]
      rfl
    · rw [if_neg hother, Option.isSome_map]
      exact flushPending_returns hadvances hfuel
  | rewind =>
    rw [Stdio.call, Option.isSome_map, Stdio.fseek, if_neg (by decide), Option.isSome_map]
    exact flushPending_returns hadvances hfuel
  | ftell => rfl
  | fflush =>
    rw [Stdio.call, Option.isSome_map, Stdio.fflush, Option.isSome_map]
    exact flushPending_returns hadvances hfuel
  | clearerr => rfl

end Returns

/-! ## A write that fails -/

section Counts

variable {t : Stdio}

/-- **What `fwrite` counts** of the bytes it is given, where a transfer fails, is what of them is in
the file, behind all that was kept before; and what it has kept otherwise is what is not in the file
yet. This is so however the environment cuts the transfers, and whichever of them fails. -/
theorem fwritex_counts (hnowrite : t.file.nowrite = false) {s : List UInt8} {r : Stdio × ℕ}
    (hr : t.fwritex w s = some r) :
    ∃ m ≤ (t.file.pending ++ s).length,
      Wrote w.env w.d t.files r.1.files ((t.file.pending ++ s).take m) ∧
        ((r.2 = s.length ∧ r.1.file.err = t.file.err ∧
            r.1.file.pending = (t.file.pending ++ s).drop m) ∨
          (r.2 = m - t.file.pending.length ∧ r.1.file.err = true ∧ r.1.file.pending = [] ∧
            m < (t.file.pending ++ s).length)) := by
  unfold Stdio.fwritex at hr
  generalize hg : (if t.file.writing = none then t.file.toWrite else (t.file, true)) = g at hr
  have hpending := toWrite_pending hg
  obtain ⟨hready, herr⟩ : g.2 = true ∧ g.1.err = t.file.err := by
    subst hg
    unfold IoFile.toWrite
    rw [hnowrite, if_neg Bool.false_ne_true]
    split_ifs <;> exact ⟨rfl, rfl⟩
  dsimp only at hr
  rw [hready, if_neg Bool.true_eq_false.mp] at hr
  -- `bytes` of what is given are written with what was kept
  have hwrite : ∀ {bytes q}, stdioWrite w ⟨g.1, t.files⟩ bytes = some q →
      ∃ m ≤ (t.file.pending ++ bytes).length,
        Wrote w.env w.d t.files q.1.files ((t.file.pending ++ bytes).take m) ∧
          ((q.1.file = { g.1 with writing := some [] } ∧ q.2 = bytes.length ∧
              m = (t.file.pending ++ bytes).length) ∨
            (q.1.file = { g.1 with writing := none, err := true } ∧
              q.2 = m - t.file.pending.length ∧ m < (t.file.pending ++ bytes).length)) := by
    intro bytes q hq
    have hspec := stdioWrite_spec hq
    dsimp only at hspec
    rwa [hpending] at hspec
  have hline : (if g.1.lbf.isSome = true then lineEnd s s.length else 0) ≤ s.length := by
    split_ifs
    · exact lineEnd_le s s.length
    · exact Nat.zero_le _
  generalize (if g.1.lbf.isSome = true then lineEnd s s.length else 0) = i at hr hline
  split_ifs at hr with hlarge hnone
  · obtain ⟨m, hm, hwrote, ⟨hfile, hcount, hall⟩ | ⟨hfile, hcount, hless⟩⟩ := hwrite hr
    · refine ⟨m, hm, hwrote, .inl ⟨hcount, ?_, ?_⟩⟩
      · rw [hfile]
        exact herr
      · rw [hfile, List.drop_of_length_le hall.ge]
        rfl
    · refine ⟨m, hm, hwrote, .inr ⟨hcount, ?_, ?_, hless⟩⟩
      · rw [hfile]
      · rw [hfile]
        rfl
  · obtain rfl := Option.some.inj hr
    refine ⟨0, Nat.zero_le _, .none_of_same rfl rfl, .inl ⟨rfl, herr, ?_⟩⟩
    rw [List.drop_zero, ← hpending]
    rfl
  · -- whole lines are written, and what follows them is kept
    obtain ⟨q, hq, rfl⟩ := Option.map_eq_some_iff.mp hr
    obtain ⟨m, hm, hwrote, hcases⟩ := hwrite hq
    have hlines : t.file.pending ++ s.take i =
        (t.file.pending ++ s).take (t.file.pending.length + i) :=
      (List.take_length_add_append i).symm
    have hlen : (t.file.pending ++ s.take i).length = t.file.pending.length + i := by
      rw [List.length_append, List.length_take, Nat.min_eq_left hline]
    rw [hlen] at hm hcases
    rw [hlines, List.take_take, Nat.min_eq_left hm] at hwrote
    have hbound : t.file.pending.length + i ≤ (t.file.pending ++ s).length := by
      rw [List.length_append]
      omega
    rcases hcases with ⟨hfile, hcount, rfl⟩ | ⟨hfile, hcount, hless⟩
    · have htaken : ¬q.2 < i := by
        rw [hcount, List.length_take]
        omega
      rw [if_neg htaken]
      refine ⟨_, hbound, hwrote, .inl ⟨rfl, ?_, ?_⟩⟩
      · simp only [Stdio.keep, hfile]
        exact herr
      · rw [List.drop_length_add_append]
        simp only [Stdio.keep, hfile]
        rfl
    · rw [if_pos (by omega)]
      refine ⟨m, hm.trans hbound, hwrote, .inr ⟨hcount, ?_, ?_, by omega⟩⟩
      · rw [hfile]
      · rw [hfile]
        rfl

/-- A stream of which the third transfer fails. -/
def failingStream : StdioEnv := ⟨twoAtATime, ⟨3, by decide⟩, false, 20⟩

theorem fwritex_counts_twoAtATime :
    ∃ r, (Stdio.opened failingStream fiveBytes false true 2 none).fwritex failingStream
        [1, 2, 3, 4, 5] = some r ∧ r.2 = 4 ∧
      (r.1.files.under twoAtATime failingStream.d).rest 0 = [10, 1, 2, 3, 4] := by
  obtain ⟨r, hr⟩ : ∃ r, (Stdio.opened failingStream fiveBytes false true 2 none).fwritex
      failingStream [1, 2, 3, 4, 5] = some r :=
    Option.isSome_iff_exists.mp (by decide +kernel)
  have hcount : r.2 = 4 := by
    have hsnd : ((Stdio.opened failingStream fiveBytes false true 2 none).fwritex failingStream
        [1, 2, 3, 4, 5]).map Prod.snd = some 4 := by
      decide +kernel
    rw [hr] at hsnd
    exact Option.some.inj hsnd
  obtain ⟨m, -, hwrote, ⟨hall, -⟩ | ⟨hfew, -⟩⟩ := fwritex_counts rfl hr
  · exact absurd (hcount.symm.trans hall) (by decide)
  · obtain rfl : m = 4 := hfew.symm.trans hcount
    refine ⟨r, hr, hcount, ?_⟩
    have hbytes := congrArg (FileBytes.rest · 0) hwrote.under
    exact hbytes.trans (by decide +kernel)

end Counts

end OpenkalMusl
