import OpenkalMusl.Files.Transfers

/-!
# A gathered transfer is one transfer

The buffers that a call of `SYS_writev` or `SYS_readv` is given are transferred one after another
until one is not filled. However they are cut, and however much of each the environment moves, what
has been written is the beginning of what the buffers hold together, at one place; and what has been
read is the beginning of what is in the file from the position on.

## Main definitions

* `FileBytes.rest`: what is in a file from a place on
* `Files.front`: where the next byte of a description is written
* `Wrote`, `Took`: what such a transfer leaves of the environment

## Main results

* `FileBytes.write_write`: two writes, one behind the other, are one
* `transferStream_wrote`, `transferStream_took`: all buffers
-/

namespace OpenkalMusl

attribute [ext] FileBytes

namespace FileBytes

variable (f : FileBytes) (p : ℕ)

/-- What is in a file from a place on. -/
def rest : List UInt8 := f.read p (f.size - p)

theorem length_rest : (f.rest p).length = f.size - p := by
  rw [rest, length_read, Nat.min_self]

theorem read_eq_take_rest (len : ℕ) : f.read p len = (f.rest p).take len := by
  refine List.ext_getElem ?_ fun i h1 h2 => ?_
  · rw [List.length_take, length_rest, length_read]
  · rw [List.getElem_take, getElem_read]
    simp only [rest, getElem_read]

theorem drop_rest (k : ℕ) : (f.rest p).drop k = f.rest (p + k) := by
  refine List.ext_getElem ?_ fun i h1 h2 => ?_
  · rw [List.length_drop, length_rest, length_rest]
    omega
  · rw [List.getElem_drop]
    simp only [rest, getElem_read, Nat.add_assoc]

theorem write_nil : f.write p [] = f := by
  ext i
  · simp only [write, if_true]
  · have hnone : ¬(p ≤ i ∧ i < p + ([] : List UInt8).length) := by
      rw [List.length_nil]
      omega
    simp only [write, if_neg hnone]

/-- **Two writes**, one behind the other, are one. -/
theorem write_write (xs ys : List UInt8) :
    (f.write p xs).write (p + xs.length) ys = f.write p (xs ++ ys) := by
  rcases eq_or_ne xs [] with rfl | hxs
  · rw [write_nil, List.length_nil, Nat.add_zero, List.nil_append]
  rcases eq_or_ne ys [] with rfl | hys
  · rw [write_nil, List.append_nil]
  have hboth : xs ++ ys ≠ [] := List.append_ne_nil_of_left_ne_nil hxs ys
  ext i
  · simp only [write, if_neg hxs, if_neg hys, if_neg hboth, List.length_append]
    omega
  · simp only [write, List.length_append]
    by_cases hsecond : p + xs.length ≤ i ∧ i < p + xs.length + ys.length
    · -- a byte of the second write
      have hplace : i - p - xs.length = i - (p + xs.length) := Nat.sub_sub i p xs.length
      rw [if_pos hsecond, if_pos (by omega), List.getElem?_append_right (by omega), hplace]
    · rw [if_neg hsecond]
      by_cases hfirst : p ≤ i ∧ i < p + xs.length
      · rw [if_pos hfirst, if_pos (by omega), List.getElem?_append_left (by omega)]
      · rw [if_neg hfirst, if_neg (by omega)]

/-- What is written at the end of a file makes it as much longer. -/
theorem size_write_end (xs : List UInt8) : (f.write f.size xs).size = f.size + xs.length := by
  rcases eq_or_ne xs [] with rfl | hxs
  · rw [write_nil, List.length_nil, Nat.add_zero]
  · simp only [write, if_neg hxs]
    omega

end FileBytes

variable {env : FileEnv} {nonblock : Bool} {d : Fin okmMaxDesc} {s s' s'' : Files}

/-- Where the next byte of a description is written. -/
def Files.front (env : FileEnv) (s : Files) (d : Fin okmMaxDesc) : ℕ :=
  if env.appends d then (s.under env d).size else s.pos d

/-- What is left of the environment when bytes were written. -/
structure Wrote (env : FileEnv) (d : Fin okmMaxDesc) (s s' : Files) (bytes : List UInt8) :
    Prop where
  file : s'.file = Function.update s.file (env.fileOf d)
    ((s.under env d).write (s.front env d) bytes)
  pos : s'.pos = if bytes = [] then s.pos
    else Function.update s.pos d (s.front env d + bytes.length)

namespace Wrote

variable {xs ys : List UInt8}

theorem under (h : Wrote env d s s' xs) :
    s'.under env d = (s.under env d).write (s.front env d) xs := by
  rw [Files.under, h.file, Function.update_self]

theorem pos_self (h : Wrote env d s s' xs) :
    s'.pos d = if xs = [] then s.pos d else s.front env d + xs.length := by
  rw [h.pos]
  split_ifs
  · rfl
  · rw [Function.update_self]

/-- What is written next is written behind it. -/
theorem front (h : Wrote env d s s' xs) : s'.front env d = s.front env d + xs.length := by
  unfold Files.front
  by_cases happends : env.appends d = true
  · have hfront : s.front env d = (s.under env d).size := by rw [Files.front, if_pos happends]
    rw [if_pos happends, if_pos happends, h.under, hfront, FileBytes.size_write_end]
  · have hfront : s.front env d = s.pos d := by rw [Files.front, if_neg happends]
    rw [if_neg happends, if_neg happends, h.pos_self, hfront]
    split_ifs with hxs
    · rw [hxs, List.length_nil, Nat.add_zero]
    · rfl

theorem none_of_same (hfile : s'.file = s.file) (hpos : s'.pos = s.pos) :
    Wrote env d s s' [] where
  file := by rw [FileBytes.write_nil, hfile, Files.under, Function.update_eq_self]
  pos := by rw [if_pos rfl, hpos]

theorem trans (h : Wrote env d s s' xs) (h' : Wrote env d s' s'' ys) :
    Wrote env d s s'' (xs ++ ys) where
  file := by
    rw [h'.file, h.file, Function.update_idem, h.under, h.front, FileBytes.write_write]
  pos := by
    rw [h'.pos, h.pos, h.front, List.length_append, Nat.add_assoc]
    rcases eq_or_ne xs [] with rfl | hxs
    · rw [if_pos rfl, List.nil_append, List.length_nil, Nat.zero_add]
    · rw [if_neg hxs, if_neg (List.append_ne_nil_of_left_ne_nil hxs ys), Function.update_idem]
      split_ifs with hys
      · rw [hys, List.length_nil, Nat.add_zero]
      · rfl

end Wrote

/-- What is left of the environment when bytes were read. -/
structure Took (env : FileEnv) (d : Fin okmMaxDesc) (s s' : Files) (bytes : List UInt8) :
    Prop where
  file : s'.file = s.file
  pos : s'.pos = Function.update s.pos d (s.pos d + bytes.length)
  bytes_eq : bytes = ((s.under env d).rest (s.pos d)).take bytes.length

namespace Took

variable {xs ys : List UInt8}

theorem under (h : Took env d s s' xs) : s'.under env d = s.under env d := by
  rw [Files.under, h.file, Files.under]

theorem pos_self (h : Took env d s s' xs) : s'.pos d = s.pos d + xs.length := by
  rw [h.pos, Function.update_self]

theorem none_of_same (hfile : s'.file = s.file) (hpos : s'.pos = s.pos) :
    Took env d s s' [] where
  file := hfile
  pos := by rw [hpos, List.length_nil, Nat.add_zero, Function.update_eq_self]
  bytes_eq := by rw [List.length_nil, List.take_zero]

theorem trans (h : Took env d s s' xs) (h' : Took env d s' s'' ys) :
    Took env d s s'' (xs ++ ys) where
  file := h'.file.trans h.file
  pos := by
    rw [h'.pos, h.pos, Function.update_idem, Function.update_self, List.length_append,
      Nat.add_assoc]
  bytes_eq := by
    have hsecond : ys = (((s.under env d).rest (s.pos d)).drop xs.length).take ys.length := by
      rw [FileBytes.drop_rest, ← h.pos_self, ← h.under]
      exact h'.bytes_eq
    calc xs ++ ys = ((s.under env d).rest (s.pos d)).take xs.length ++
          (((s.under env d).rest (s.pos d)).drop xs.length).take ys.length := by
            rw [← hsecond, ← h.bytes_eq]
      _ = ((s.under env d).rest (s.pos d)).take (xs ++ ys).length := by
            rw [← List.take_add, List.length_append]

end Took

/-! ## The loop over the buffers -/

/-- What the transfer of one buffer, or of all, leaves: `got` has been moved, which is then at the
beginning of the buffers; none is moved only where `E` holds. -/
structure Moves (R : Files → Files → List UInt8 → Prop) (E : Files → Prop) (s s' : Files)
    (before after got : List UInt8) (total : ℕ) (result : Except Errno ℕ) : Prop where
  moved : R s s' got
  held : after.take got.length = got
  length_eq : after.length = before.length
  result_eq : result = .ok (total + got.length) ∨
    (total = 0 ∧ got = [] ∧ ∃ e, result = .error e)
  progress : result = .ok 0 → before ≠ [] → E s

namespace Moves

variable {R : Files → Files → List UInt8 → Prop} {E : Files → Prop}
  {before after got : List UInt8} {total : ℕ} {result : Except Errno ℕ}

theorem length_le (h : Moves R E s s' before after got total result) :
    got.length ≤ before.length := by
  have hlen := congrArg List.length h.held
  rw [List.length_take, h.length_eq] at hlen
  omega

end Moves

/-- The loop does with all buffers what `move` does with one. -/
theorem transferLoop_moves {R : Files → Files → List UInt8 → Prop} {E : Files → Prop}
    (hrefl : ∀ s, R s s [])
    (htrans : ∀ {s s' s'' xs ys}, R s s' xs → R s' s'' ys → R s s'' (xs ++ ys))
    {move : Files → ℕ → List UInt8 → Moved}
    (hmove : ∀ s total buffer, buffer.length ≠ 0 → ∃ got, Moves R E s (move s total buffer).files
      buffer (move s total buffer).buffer got 0 (move s total buffer).result)
    (v : List (List UInt8)) (s : Files) (total : ℕ) :
    ∃ got, Moves R E s (transferLoop move v s total).files v.flatten
      (transferLoop move v s total).buffers.flatten got total
      (transferLoop move v s total).result := by
  induction v generalizing s total with
  | nil => exact ⟨[], hrefl s, rfl, rfl, .inl rfl, fun _ hne => absurd rfl hne⟩
  | cons buffer v ih =>
    unfold transferLoop
    by_cases hempty : buffer.length = 0
    · -- an empty buffer is passed over
      obtain ⟨got, h⟩ := ih s total
      rw [if_pos hempty]
      obtain rfl := List.length_eq_zero_iff.mp hempty
      exact ⟨got, h⟩
    rw [if_neg hempty]
    obtain ⟨got, h⟩ := hmove s total buffer hempty
    have hne : buffer ≠ [] := fun hnil => hempty (List.length_eq_zero_iff.mpr hnil)
    dsimp only
    have hlen := h.length_le
    have hbuffer := h.length_eq
    -- what was moved is at the beginning of all buffers
    have hheld : ∀ others : List UInt8,
        ((move s total buffer).buffer ++ others).take got.length = got := fun others => by
      rw [List.take_append_of_le_length (by omega), h.held]
    rcases h.result_eq with hok | ⟨-, rfl, e, herror⟩
    · rw [Nat.zero_add] at hok
      rw [hok]
      dsimp only
      by_cases hshort : got.length < buffer.length
      · rw [if_pos hshort]
        refine ⟨got, h.moved, hheld _, ?_, .inl rfl, fun hzero _ => ?_⟩
        · rw [List.flatten_cons, List.flatten_cons, List.length_append, List.length_append,
            hbuffer]
        · have hsum : total + got.length = 0 := Except.ok.inj hzero
          exact h.progress (hok.trans (congrArg _ (by omega))) hne
      · -- a buffer that was filled is followed by the next
        rw [if_neg hshort]
        obtain ⟨more, hmore⟩ := ih (move s total buffer).files (total + got.length)
        have hfull : (move s total buffer).buffer = got := by
          rw [← h.held, List.take_of_length_le (by omega)]
        have hpos : 0 < got.length := by omega
        refine ⟨got ++ more, htrans h.moved hmore.moved, ?_, ?_, ?_, fun hzero _ => ?_⟩
        · rw [Transferred.after, List.flatten_cons, hfull, List.length_append,
            List.take_length_add_append, hmore.held]
        · rw [Transferred.after, List.flatten_cons, List.flatten_cons, List.length_append,
            List.length_append, hbuffer, hmore.length_eq]
        · rcases hmore.result_eq with hresult | ⟨hzero, -⟩
          · rw [List.length_append, ← Nat.add_assoc]
            exact .inl hresult
          · omega
        · rcases hmore.result_eq with hresult | ⟨htotal, -⟩
          · have hsum := Except.ok.inj (hresult.symm.trans hzero)
            omega
          · omega
    · rw [herror]
      dsimp only
      refine ⟨[], h.moved, List.take_zero, ?_, ?_, ?_⟩
      · rw [List.flatten_cons, List.flatten_cons, List.length_append, List.length_append, hbuffer]
      · by_cases htotal : total = 0
        · rw [if_pos htotal]
          exact .inr ⟨htotal, rfl, e, rfl⟩
        · rw [if_neg htotal]
          exact .inl rfl
      · by_cases htotal : total = 0
        · rw [if_pos htotal]
          exact fun hzero => by cases hzero
        · rw [if_neg htotal]
          exact fun hzero => absurd (Except.ok.inj hzero) htotal

/-- Where the transfer of no buffer fails, that of all does not. -/
theorem transferLoop_ok {move : Files → ℕ → List UInt8 → Moved}
    (hmove : ∀ s total buffer, ∃ n, (move s total buffer).result = .ok n)
    (v : List (List UInt8)) (s : Files) (total : ℕ) :
    ∃ n, (transferLoop move v s total).result = .ok n := by
  induction v generalizing s total with
  | nil => exact ⟨total, rfl⟩
  | cons buffer v ih =>
    obtain ⟨n, hn⟩ := hmove s total buffer
    unfold transferLoop
    dsimp only
    rw [hn]
    dsimp only
    split_ifs
    · exact ih s total
    · exact ⟨total + n, rfl⟩
    · exact ih _ _

/-- Of empty buffers nothing is transferred. -/
theorem transferLoop_empty (move : Files → ℕ → List UInt8 → Moved) {v : List (List UInt8)}
    (hv : v.flatten = []) (s : Files) (total : ℕ) :
    (transferLoop move v s total).result = .ok total := by
  induction v with
  | nil => rfl
  | cons buffer v ih =>
    obtain ⟨rfl, hrest⟩ := List.append_eq_nil_iff.mp hv
    exact ih hrest

/-- Buffers that none of the transfers alters. -/
theorem transferLoop_buffers {move : Files → ℕ → List UInt8 → Moved}
    (hmove : ∀ s total buffer, (move s total buffer).buffer = buffer)
    (v : List (List UInt8)) (s : Files) (total : ℕ) :
    (transferLoop move v s total).buffers = v := by
  induction v generalizing s total with
  | nil => rfl
  | cons buffer v ih =>
    unfold transferLoop
    by_cases hempty : buffer.length = 0
    · rw [if_pos hempty]
      exact congrArg (buffer :: ·) (ih s total)
    · rw [if_neg hempty]
      dsimp only
      split
      · exact congrArg (· :: v) (hmove s total buffer)
      · split_ifs
        · exact congrArg (· :: v) (hmove s total buffer)
        · exact congrArg₂ List.cons (hmove s total buffer) (ih _ _)

/-! ## The transfers of a file -/

/-- What the environment is asked for, it does, of some of what it is given; where the description
declines to wait, there are transfers that do not. -/
structure FileEnv.Serves (env : FileEnv) (nonblock : Bool) : Prop where
  moves : ∀ n, ∃ most, env.answer n = .moves most
  seeks : ∀ n, env.seekFails n = none
  waits : (nonblock && !env.bounded) = false

/-- A write moves at least a byte. -/
def FileEnv.Advances (env : FileEnv) : Prop := ∀ n most, env.answer n = .moves most → 0 < most

theorem doReadFile_moves (s : Files) {len : ℕ} (hlen : len ≠ 0) :
    (∃ got, Took env d s (doReadFile env nonblock s d len).1 got ∧ got.length ≤ len ∧
        (doReadFile env nonblock s d len).2 = .ok got ∧
        (got = [] → (s.under env d).rest (s.pos d) = [])) ∨
      (Took env d s (doReadFile env nonblock s d len).1 [] ∧
        ∃ e, (doReadFile env nonblock s d len).2 = .error e) := by
  unfold doReadFile
  rw [if_neg hlen]
  by_cases hwait : (nonblock && !env.bounded) = true
  · rw [if_pos hwait]
    exact .inr ⟨.none_of_same rfl rfl, _, rfl⟩
  rw [if_neg hwait]
  unfold Files.streamRead Files.readAt
  dsimp only
  cases env.answer s.transfers with
  | fails e => exact .inr ⟨.none_of_same rfl rfl, _, rfl⟩
  | moves most =>
    dsimp only
    rw [FileBytes.read_eq_take_rest]
    refine .inl ⟨_, ⟨rfl, rfl, ?_⟩, ?_, rfl, fun hnone => ?_⟩
    · rw [List.length_take, ← List.take_eq_take_min]
    · rw [List.length_take]
      omega
    · -- of what there is, at least a byte is read
      rcases List.take_eq_nil_iff.mp hnone with hmin | hrest
      · omega
      · exact hrest

theorem moveStream_reads (s : Files) (buffer : List UInt8) (hne : buffer.length ≠ 0) :
    ∃ got, Moves (Took env d) (fun s => (s.under env d).rest (s.pos d) = []) s
      (moveStream env nonblock false d s buffer).files buffer
      (moveStream env nonblock false d s buffer).buffer got 0
      (moveStream env nonblock false d s buffer).result := by
  unfold moveStream
  rw [if_neg (by simp)]
  have h := @doReadFile_moves env nonblock d s buffer.length hne
  generalize doReadFile env nonblock s d buffer.length = r at h ⊢
  obtain ⟨s', result⟩ := r
  rcases h with ⟨got, htook, hlen, rfl, hend⟩ | ⟨htook, e, rfl⟩
  · refine ⟨got, htook, ?_, ?_, .inl (by rw [Nat.zero_add]; rfl), fun hzero _ => ?_⟩
    · exact List.take_left' rfl
    · simp only [Moved.ofRead, filled, List.length_append, List.length_drop]
      omega
    · exact hend (List.length_eq_zero_iff.mp (Except.ok.inj hzero))
  · exact ⟨[], htook, rfl, rfl, .inr ⟨rfl, rfl, e, rfl⟩, fun hzero => by cases hzero⟩

theorem moveStream_writes (s : Files) (buffer : List UInt8) (hne : buffer.length ≠ 0) :
    ∃ got, Moves (Wrote env d) (fun _ => ¬env.Advances) s
      (moveStream env nonblock true d s buffer).files buffer
      (moveStream env nonblock true d s buffer).buffer got 0
      (moveStream env nonblock true d s buffer).result := by
  have hnil : buffer ≠ [] := fun hnil => hne (List.length_eq_zero_iff.mpr hnil)
  unfold moveStream doWriteFile
  rw [if_pos rfl, if_neg hnil]
  by_cases hwait : (nonblock && !env.bounded) = true
  · rw [if_pos hwait]
    exact ⟨[], .none_of_same rfl rfl, rfl, rfl, .inr ⟨rfl, rfl, _, rfl⟩,
      fun hzero => by cases hzero⟩
  rw [if_neg hwait]
  unfold Files.streamWrite Files.writeAt
  dsimp only
  cases hanswer : env.answer s.transfers with
  | fails e =>
    exact ⟨[], .none_of_same rfl rfl, rfl, rfl, .inr ⟨rfl, rfl, _, rfl⟩,
      fun hzero => by cases hzero⟩
  | moves most =>
    refine ⟨buffer.take most, ⟨rfl, ?_⟩, ?_, rfl, .inl (by rw [Nat.zero_add]; rfl),
      fun hzero _ hadvances => ?_⟩
    · dsimp only [Files.moveTo]
      by_cases hnone : buffer.take most = []
      · rw [hnone, if_pos rfl, if_pos List.length_nil, Function.update_eq_self]
      · rw [if_neg hnone, if_neg (fun h => hnone (List.length_eq_zero_iff.mp h))]
        rfl
    · rw [List.length_take, ← List.take_eq_take_min]
    · have hpos := hadvances _ _ hanswer
      have hzero : (buffer.take most).length = 0 := Except.ok.inj hzero
      rw [List.length_take] at hzero
      omega

/-- The transfer of one buffer does not fail. -/
theorem FileEnv.Serves.moveStream_ok (h : env.Serves nonblock) (writing : Bool) (s : Files)
    (buffer : List UInt8) : ∃ n, (moveStream env nonblock writing d s buffer).result = .ok n := by
  obtain ⟨most, hmost⟩ := h.moves s.transfers
  cases writing with
  | true =>
    unfold moveStream doWriteFile Files.streamWrite Files.writeAt
    rw [if_pos rfl, h.waits, if_neg Bool.false_ne_true, hmost]
    dsimp only
    by_cases hnil : buffer = []
    · rw [if_pos hnil]
      exact ⟨0, rfl⟩
    · rw [if_neg hnil]
      exact ⟨_, rfl⟩
  | false =>
    unfold moveStream doReadFile Files.streamRead Files.readAt
    rw [if_neg Bool.false_ne_true, h.waits, if_neg Bool.false_ne_true, hmost]
    dsimp only
    by_cases hnil : buffer.length = 0
    · rw [if_pos hnil]
      exact ⟨0, rfl⟩
    · rw [if_neg hnil]
      exact ⟨_, rfl⟩

/-- **What is read into buffers** is what there is from the position on. -/
theorem transferStream_reads (v : List (List UInt8)) (s : Files) :
    ∃ got, Moves (Took env d) (fun s => (s.under env d).rest (s.pos d) = []) s
      (transferStream env nonblock false d v s).files v.flatten
      (transferStream env nonblock false d v s).buffers.flatten got 0
      (transferStream env nonblock false d v s).result :=
  transferLoop_moves (fun _ => .none_of_same rfl rfl) Took.trans
    (fun s _ buffer hne => moveStream_reads s buffer hne) v s 0

/-- **What is written of buffers** is the beginning of what they hold together. -/
theorem transferStream_writes (v : List (List UInt8)) (s : Files) :
    ∃ got, Moves (Wrote env d) (fun _ => ¬env.Advances) s
      (transferStream env nonblock true d v s).files v.flatten v.flatten got 0
      (transferStream env nonblock true d v s).result := by
  have hbuffers : (transferStream env nonblock true d v s).buffers = v :=
    transferLoop_buffers (fun _ _ _ => by simp only [moveStream, if_true]) v s 0
  obtain ⟨got, h⟩ := transferLoop_moves (fun _ => .none_of_same rfl rfl) Wrote.trans
    (fun s _ buffer hne => @moveStream_writes env nonblock d s buffer hne) v s 0
  unfold transferStream at hbuffers
  rw [hbuffers] at h
  exact ⟨got, h⟩

/-- The transfer of buffers does not fail. -/
theorem FileEnv.Serves.transferStream_ok (h : env.Serves nonblock) (writing : Bool)
    (v : List (List UInt8)) (s : Files) :
    ∃ n, (transferStream env nonblock writing d v s).result = .ok n :=
  transferLoop_ok (fun s _ buffer => h.moveStream_ok writing s buffer) v s 0

end OpenkalMusl
