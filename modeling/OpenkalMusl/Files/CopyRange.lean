import OpenkalMusl.Files.Gathered

/-!
# `copy_file_range`

The call reads a block and writes it, as long as there is something to read. Where an offset is
given, in a variable of the caller's, the position of its description is moved there before and put
back afterwards, and the variable is advanced by what was copied.

The position that is moved is the description's own. It stays moved where the second pair of seeks
fails, and it is off by what was read and not written where no offset is given for the input. One
description for both has one position, which the input and the output take from each other; and one
variable for both offsets is advanced twice.

## Main definitions

* `copyLoop`, `copyFiles`: the loop, and the call on two descriptions
* `copyFileRange`: the call
* `Said`: what the call says that it does
* `CopyPassed`: what a round does to the files and the positions
* `Placeable`, `BackIn`, `BackOut`: the seeks that succeed

## Main results

* `copyLoop_round`: one round, and whether it is the last
* `copyLoop_last`, `copyLoop_keeps`: what every round keeps, the loop keeps
* `copyFiles_of_placeable`: the call, by its loop
* `said_iff_copySaid`: what is said of it is said of the loop
-/

namespace OpenkalMusl

/-- The size of a block. -/
def copyBlock : ℕ := 8192

/-- The arguments of `copy_file_range`. An offset is given as the place of the variable it is in. -/
structure CopyCall where
  fdIn : Int
  offIn : Option ℕ
  fdOut : Int
  offOut : Option ℕ
  want : ℕ
  flags : ℕ

/-- The caller's variables, by their places. -/
abbrev Cells := ℕ → Int

/-- `*off += done`, where there is an offset. -/
def Cells.advance (cells : Cells) (off : Option ℕ) (done : ℕ) : Cells :=
  match off with
  | none => cells
  | some p => Function.update cells p (cells p + done)

/-- What the call leaves: the files, what it returns, and the caller's variables. -/
structure CopyResult where
  files : Files
  result : Except Errno ℕ
  cells : Cells

/-- What the loop leaves: the files, how much was copied, and the failure that ended it. -/
structure Looped where
  files : Files
  done : ℕ
  failure : Option Errno

/-- Two descriptions of files, and whether transfers of them decline to wait. -/
structure CopyEnds where
  env : FileEnv
  from_ : Fin okmMaxDesc
  into : Fin okmMaxDesc
  nonblockIn : Bool
  nonblockOut : Bool

/-- The loop; a round that does not end it copies at least one byte, so that `want` rounds are
enough. -/
def copyLoop (c : CopyEnds) (want : ℕ) : ℕ → Files → ℕ → Looped
  | 0, s, done => ⟨s, done, none⟩
  | fuel + 1, s, done =>
    if want ≤ done then ⟨s, done, none⟩
    else
      let r := doReadFile c.env c.nonblockIn s c.from_ (min (want - done) copyBlock)
      match r.2 with
      | .error e => ⟨r.1, done, some e⟩
      | .ok got =>
        -- the end of the input
        if got = [] then ⟨r.1, done, none⟩
        else
          let p := doWriteFile c.env c.nonblockOut r.1 c.into got
          match p.2 with
          | .error e => ⟨p.1, done, some e⟩
          | .ok put =>
            -- a short write counts, and ends the loop
            if put < got.length then ⟨p.1, done + put, some .eio⟩
            else copyLoop c want fuel p.1 (done + put)

/-- The position is learnt, and moved to an offset where one is given. -/
def placeAt (env : FileEnv) (s : Files) (d : Fin okmMaxDesc) : Option Int → Files × Except Errno ℕ
  | none => (s, .ok 0)
  | some off =>
    let cur := s.seekCur env d
    match cur.2 with
    | .error _ => (cur.1, .error .eio)
    | .ok keep =>
      let set := cur.1.seekSet env d off
      match set.2 with
      | .error _ => (set.1, .error .eio)
      | .ok _ => (set.1, .ok keep)

/-- The position is put back where an offset was given. -/
def putBack (env : FileEnv) (s : Files) (d : Fin okmMaxDesc) (keep : ℕ) (given : Bool) : Files :=
  if given then ((s.seekCur env d).1.seekSet env d keep).1 else s

/-- What is returned: what was copied, and a failure only where nothing was. -/
def Looped.result (l : Looped) : Except Errno ℕ :=
  if 0 < l.done then .ok l.done
  else match l.failure with
    | some e => .error e
    | none => .ok 0

/-- `copy_file_range` of two descriptions of files. -/
def copyFiles (c : CopyEnds) (offIn offOut : Option ℕ) (want : ℕ) (cells : Cells) (s : Files) :
    CopyResult :=
  let i := placeAt c.env s c.from_ (offIn.map cells)
  match i.2 with
  | .error e => ⟨i.1, .error e, cells⟩
  | .ok keepIn =>
    let o := placeAt c.env i.1 c.into (offOut.map cells)
    match o.2 with
    | .error e => ⟨o.1, .error e, cells⟩
    | .ok keepOut =>
      let l := copyLoop c want want o.1 0
      -- each variable is advanced by itself, and one that both pointers name twice
      ⟨putBack c.env (putBack c.env l.files c.from_ keepIn offIn.isSome) c.into keepOut
          offOut.isSome,
        l.result, (cells.advance offIn l.done).advance offOut l.done⟩

/-- `SYS_copy_file_range`. -/
def copyFileRange (env : FileEnv) (w : PortState) (cells : Cells) (s : Files) (c : CopyCall) :
    CopyResult :=
  if c.flags ≠ 0 then ⟨s, .error .einval, cells⟩
  else if c.want = 0 then ⟨s, .ok 0, cells⟩
  else
    match w.okmDescOf c.fdIn, w.okmDescOf c.fdOut with
    | some i, some o =>
      if (w.desc i).kind ≠ .file ∨ (w.desc o).kind ≠ .file then ⟨s, .error .einval, cells⟩
      else
        copyFiles ⟨env, i, o, hasFlag (w.desc i).flags oNonblock,
          hasFlag (w.desc o).flags oNonblock⟩
          c.offIn c.offOut c.want cells s
    | _, _ => ⟨s, .error .ebadf, cells⟩

/-! ## What the call says -/

/-- Where a transfer begins: at the offset, or at the position. -/
def startOf (s : Files) (d : Fin okmMaxDesc) (off : Option Int) : ℕ :=
  match off with
  | some off => off.toNat
  | none => s.pos d

/-- The files once `n` bytes that are at `a` of the input are at `b` of the output. -/
def copiedTo (c : CopyEnds) (a b n : ℕ) (s : Files) : ℕ → FileBytes :=
  Function.update s.file (c.env.fileOf c.into)
    ((s.under c.env c.into).write b ((s.under c.env c.from_).read a n))

/-- **What the call says that it does**, of the caller's variables, the files and the positions. -/
structure Said (c : CopyEnds) (offIn offOut : Option ℕ) (cells : Cells) (s : Files)
    (o : CopyResult) : Prop where
  bytes : ∀ n, o.result = .ok n →
    startOf s c.from_ (offIn.map cells) + n ≤ (s.under c.env c.from_).size ∨ n = 0
  files : ∀ n, o.result = .ok n → o.files.file =
    copiedTo c (startOf s c.from_ (offIn.map cells)) (startOf s c.into (offOut.map cells)) n s
  offsets : ∀ n, o.result = .ok n →
    ∀ p, o.cells p = if some p = offIn ∨ some p = offOut then cells p + n else cells p
  posIn : ∀ n, o.result = .ok n →
    o.files.pos c.from_ = if offIn.isSome then s.pos c.from_ else s.pos c.from_ + n
  posOut : ∀ n, o.result = .ok n →
    o.files.pos c.into = if offOut.isSome then s.pos c.into else s.pos c.into + n
  failed : ∀ e, o.result = .error e → o.cells = cells ∧
    o.files.pos c.from_ = s.pos c.from_ ∧ o.files.pos c.into = s.pos c.into

/-! ## One round -/

namespace FileBytes

variable (f : FileBytes) (p : ℕ)

theorem read_zero : f.read p 0 = [] := by
  rw [read_eq_take_rest, List.take_zero]

theorem take_read (len k : ℕ) : (f.read p len).take k = f.read p (min k len) := by
  rw [read_eq_take_rest, read_eq_take_rest, List.take_take]

end FileBytes

/-- The most that a read brings, as the `n`-th transfer: nothing where it is refused or fails. -/
def FileEnv.mostRead (env : FileEnv) (nonblock : Bool) (n : ℕ) : ℕ :=
  if nonblock && !env.bounded then 0
  else match env.answer n with
    | .fails _ => 0
    | .moves most => most + 1

/-- The most that a write takes, as the `n`-th transfer. -/
def FileEnv.mostWritten (env : FileEnv) (nonblock : Bool) (n : ℕ) : ℕ :=
  if nonblock && !env.bounded then 0
  else match env.answer n with
    | .fails _ => 0
    | .moves most => most

section Transfers

variable {env : FileEnv} {nonblock : Bool} {d : Fin okmMaxDesc}

/-- **A read**, by how much it brings; where it fails that is nothing. -/
theorem doReadFile_brings (s : Files) {len : ℕ} (hlen : len ≠ 0) :
    ∃ u, Took env d s u
        ((s.under env d).read (s.pos d) (min len (env.mostRead nonblock s.transfers))) ∧
      u.seeks = s.seeks ∧
      (doReadFile env nonblock s d len = (u, .ok
          ((s.under env d).read (s.pos d) (min len (env.mostRead nonblock s.transfers)))) ∧
          u.transfers = s.transfers + 1 ∨
        env.mostRead nonblock s.transfers = 0 ∧ ∃ e, doReadFile env nonblock s d len =
          (u, .error e)) := by
  unfold doReadFile FileEnv.mostRead
  rw [if_neg hlen]
  by_cases hwait : (nonblock && !env.bounded) = true
  · rw [if_pos hwait, if_pos hwait, Nat.min_zero, FileBytes.read_zero]
    exact ⟨s, .none_of_same rfl rfl, rfl, .inr ⟨rfl, _, rfl⟩⟩
  rw [if_neg hwait, if_neg hwait]
  unfold Files.streamRead Files.readAt
  dsimp only
  cases env.answer s.transfers with
  | fails e =>
    dsimp only
    rw [Nat.min_zero, FileBytes.read_zero]
    exact ⟨{ s with transfers := s.transfers + 1 }, .none_of_same rfl rfl, rfl, .inr ⟨rfl, _, rfl⟩⟩
  | moves most =>
    refine ⟨_, ?_, ?_, .inl ⟨rfl, rfl⟩⟩
    · refine ⟨rfl, rfl, ?_⟩
      rw [FileBytes.read_eq_take_rest, List.length_take, ← List.take_eq_take_min]
    · rfl

/-- **A write**, by how much it takes. -/
theorem doWriteFile_puts (s : Files) {bytes : List UInt8} (hbytes : bytes ≠ []) :
    ∃ v, Wrote env d s v (bytes.take (env.mostWritten nonblock s.transfers)) ∧
      v.seeks = s.seeks ∧
      (doWriteFile env nonblock s d bytes =
          (v, .ok (bytes.take (env.mostWritten nonblock s.transfers)).length) ∧
          v.transfers = s.transfers + 1 ∨
        env.mostWritten nonblock s.transfers = 0 ∧ ∃ e, doWriteFile env nonblock s d bytes =
          (v, .error e)) := by
  unfold doWriteFile FileEnv.mostWritten
  rw [if_neg hbytes]
  by_cases hwait : (nonblock && !env.bounded) = true
  · rw [if_pos hwait, if_pos hwait, List.take_zero]
    exact ⟨s, .none_of_same rfl rfl, rfl, .inr ⟨rfl, _, rfl⟩⟩
  rw [if_neg hwait, if_neg hwait]
  unfold Files.streamWrite Files.writeAt
  dsimp only
  cases env.answer s.transfers with
  | fails e =>
    dsimp only
    rw [List.take_zero]
    exact ⟨{ s with transfers := s.transfers + 1 }, .none_of_same rfl rfl, rfl, .inr ⟨rfl, _, rfl⟩⟩
  | moves most =>
    refine ⟨_, ⟨?_, ?_⟩, ?_, .inl ⟨rfl, rfl⟩⟩
    · rfl
    · dsimp only [Files.moveTo]
      by_cases hnone : bytes.take most = []
      · rw [hnone, if_pos rfl, if_pos List.length_nil, Function.update_eq_self]
      · rw [if_neg hnone, if_neg (fun h => hnone (List.length_eq_zero_iff.mp h))]
        rfl
    · rfl

end Transfers

namespace CopyEnds

variable (c : CopyEnds) (want : ℕ) (t : Files)

/-- The most that the `n`-th transfer brings, as a read of the input. -/
def offers (n : ℕ) : ℕ := c.env.mostRead c.nonblockIn n

/-- The most that it takes, as a write to the output. -/
def takes (n : ℕ) : ℕ := c.env.mostWritten c.nonblockOut n

/-- What a round reads. -/
def roundReads (done : ℕ) : ℕ :=
  min (min (min (want - done) copyBlock) (c.offers t.transfers))
    ((t.under c.env c.from_).size - t.pos c.from_)

/-- What it writes of that. -/
def roundWrites (done : ℕ) : ℕ := min (c.roundReads want t done) (c.takes (t.transfers + 1))

/-- The round reads something and writes all of it. -/
def RoundWhole (done : ℕ) : Prop :=
  0 < c.roundReads want t done ∧ c.roundReads want t done ≤ c.takes (t.transfers + 1)

/-- Where a round writes that read `r` bytes. -/
def roundFront (r : ℕ) : ℕ :=
  (t.moveTo c.from_ (t.pos c.from_ + r)).front c.env c.into

end CopyEnds

/-- What a round leaves that read `r` bytes and wrote `w` of them. -/
structure CopyPassed (c : CopyEnds) (t v : Files) (r w : ℕ) : Prop where
  file : v.file = Function.update t.file (c.env.fileOf c.into)
    ((t.under c.env c.into).write (c.roundFront t r)
      ((t.under c.env c.from_).read (t.pos c.from_) w))
  pos : v.pos = if w = 0 then Function.update t.pos c.from_ (t.pos c.from_ + r)
    else Function.update (Function.update t.pos c.from_ (t.pos c.from_ + r)) c.into
      (c.roundFront t r + w)
  seeks : v.seeks = t.seeks

section Rounds

variable {c : CopyEnds} {want done : ℕ} {t u v : Files}

theorem copyPassed_of_took_wrote {r w : ℕ}
    (htook : Took c.env c.from_ t u ((t.under c.env c.from_).read (t.pos c.from_) r))
    (hwrote : Wrote c.env c.into u v ((t.under c.env c.from_).read (t.pos c.from_) w))
    (hr : r ≤ (t.under c.env c.from_).size - t.pos c.from_) (hw : w ≤ r)
    (hseeks : v.seeks = t.seeks) : CopyPassed c t v r w := by
  have hlength : ∀ k ≤ r, ((t.under c.env c.from_).read (t.pos c.from_) k).length = k := by
    intro k hk
    rw [FileBytes.length_read]
    omega
  have hpos : u.pos = Function.update t.pos c.from_ (t.pos c.from_ + r) := by
    rw [htook.pos, hlength r le_rfl]
  have hfront : u.front c.env c.into = c.roundFront t r := by
    rw [CopyEnds.roundFront, Files.front, Files.front, Files.under, htook.file, hpos]
    rfl
  refine ⟨?_, ?_, hseeks⟩
  · rw [hwrote.file, hfront, Files.under, htook.file]
    rfl
  · have hnil : (t.under c.env c.from_).read (t.pos c.from_) w = [] ↔ w = 0 := by
      rw [← List.length_eq_zero_iff, hlength w hw]
    rw [hwrote.pos, hfront, hpos, hlength w hw]
    simp only [hnil]

/-- A round that reads nothing leaves the files and the positions. -/
theorem copyPassed_of_took (htook : Took c.env c.from_ t u []) (hseeks : u.seeks = t.seeks) :
    CopyPassed c t u 0 0 := by
  refine copyPassed_of_took_wrote (u := u) ?_ ?_ (Nat.zero_le _) le_rfl hseeks <;>
    rw [FileBytes.read_zero]
  · exact htook
  · exact .none_of_same rfl rfl

/-- What is said of one round: what it reads and writes, and that the loop goes on exactly where it
reads something and writes all of it. -/
structure CopyRound (c : CopyEnds) (want fuel : ℕ) (t : Files) (done : ℕ) (v : Files) : Prop where
  passed : CopyPassed c t v (c.roundReads want t done) (c.roundWrites want t done)
  goes : c.RoundWhole want t done → v.transfers = t.transfers + 2 ∧
    copyLoop c want (fuel + 1) t done = copyLoop c want fuel v (done + c.roundReads want t done)
  ends : ¬c.RoundWhole want t done → ∃ failure,
    copyLoop c want (fuel + 1) t done = ⟨v, done + c.roundWrites want t done, failure⟩

/-- A round that reads nothing is the last. -/
theorem copyRound_of_nothing {fuel : ℕ} (hzero : c.roundReads want t done = 0)
    (htook : Took c.env c.from_ t u []) (hseeks : u.seeks = t.seeks)
    (hloop : ∃ failure, copyLoop c want (fuel + 1) t done = ⟨u, done, failure⟩) :
    CopyRound c want fuel t done u where
  passed := by
    rw [CopyEnds.roundWrites, hzero, Nat.zero_min]
    exact copyPassed_of_took htook hseeks
  goes h := by
    rw [CopyEnds.RoundWhole, hzero] at h
    exact absurd h.1 (Nat.lt_irrefl 0)
  ends _ := by
    rw [CopyEnds.roundWrites, hzero, Nat.zero_min]
    exact hloop

/-- What was read is written, and the round is the last where that is short. -/
theorem copyRound_of_got {fuel : ℕ} {got : List UInt8} (hmore : ¬want ≤ done)
    (hread : doReadFile c.env c.nonblockIn t c.from_ (min (want - done) copyBlock) = (u, .ok got))
    (htook : Took c.env c.from_ t u got) (hseeks : u.seeks = t.seeks)
    (htransfers : u.transfers = t.transfers + 1) (hreads : c.roundReads want t done = got.length)
    (hnil : got ≠ []) : ∃ v, CopyRound c want fuel t done v := by
  obtain ⟨v, hwrote, hseeks', hwrite⟩ := @doWriteFile_puts c.env c.nonblockOut c.into u _ hnil
  rw [htransfers] at hwrote hwrite
  generalize hmost : c.env.mostWritten c.nonblockOut (t.transfers + 1) = most at hwrote hwrite
  have htakes : c.takes (t.transfers + 1) = most := hmost
  have hsame : got = (t.under c.env c.from_).read (t.pos c.from_) got.length := by
    rw [FileBytes.read_eq_take_rest]
    exact htook.bytes_eq
  have hwrites : c.roundWrites want t done = (got.take most).length := by
    rw [CopyEnds.roundWrites, hreads, htakes, List.length_take, Nat.min_comm]
  have hpassed : CopyPassed c t v (c.roundReads want t done) (c.roundWrites want t done) := by
    refine copyPassed_of_took_wrote (u := u) ?_ ?_ (Nat.min_le_right _ _) (Nat.min_le_left _ _)
      (hseeks'.trans hseeks)
    · rw [hreads, ← hsame]
      exact htook
    · rw [hwrites, List.length_take, ← FileBytes.take_read, ← hsame]
      exact hwrote
  have hpos := List.length_pos_of_ne_nil hnil
  have hwhole : c.RoundWhole want t done ↔ ¬(got.take most).length < got.length := by
    rw [CopyEnds.RoundWhole, hreads, htakes, List.length_take]
    omega
  have hloop : copyLoop c want (fuel + 1) t done =
      match (doWriteFile c.env c.nonblockOut u c.into got).2 with
      | .error e => ⟨(doWriteFile c.env c.nonblockOut u c.into got).1, done, some e⟩
      | .ok put =>
        if put < got.length then
          ⟨(doWriteFile c.env c.nonblockOut u c.into got).1, done + put, some .eio⟩
        else copyLoop c want fuel (doWriteFile c.env c.nonblockOut u c.into got).1
          (done + put) := by
    conv_lhs => unfold copyLoop
    rw [if_neg hmore, hread]
    dsimp only
    rw [if_neg hnil]
  rcases hwrite with ⟨hwrite, htransfers'⟩ | ⟨hzero, e, hwrite⟩
  · -- the write answers, and is short exactly where the round is not whole
    rw [hwrite] at hloop
    refine ⟨v, hpassed, fun h => ⟨htransfers', ?_⟩, fun h => ⟨some .eio, ?_⟩⟩
    · have hput : (got.take most).length = got.length := by
        have hshort := hwhole.mp h
        rw [List.length_take] at hshort ⊢
        omega
      rw [hloop]
      dsimp only
      rw [if_neg (hwhole.mp h), hreads, hput]
    · rw [hloop]
      dsimp only
      rw [if_pos (not_not.mp (mt hwhole.mpr h)), ← hwrites]
  · -- it fails, and what was read stays read
    rw [hwrite] at hloop
    rw [hzero, List.take_zero, List.length_nil] at hwrites hwhole
    refine ⟨v, hpassed, fun h => absurd hpos (hwhole.mp h), fun _ => ⟨some e, ?_⟩⟩
    rw [hloop, hwrites]
    rfl

/-- **One round.** -/
theorem copyLoop_round (c : CopyEnds) (want fuel : ℕ) (t : Files) (done : ℕ) :
    ∃ v, CopyRound c want fuel t done v := by
  by_cases hmore : want ≤ done
  · -- nothing more is wanted
    refine ⟨t, copyRound_of_nothing ?_ (.none_of_same rfl rfl) rfl ⟨none, ?_⟩⟩
    · rw [CopyEnds.roundReads]
      omega
    · unfold copyLoop
      rw [if_pos hmore]
  have hlen : min (want - done) copyBlock ≠ 0 := by
    rw [copyBlock]
    omega
  obtain ⟨u, htook, hseeks, hread⟩ := @doReadFile_brings c.env c.nonblockIn c.from_ t _ hlen
  rcases hread with ⟨hread, htransfers⟩ | ⟨hzero, e, hread⟩
  · -- the read answers, with nothing at the end of the input
    generalize hgot : (t.under c.env c.from_).read (t.pos c.from_)
      (min (min (want - done) copyBlock) (c.env.mostRead c.nonblockIn t.transfers)) = got at *
    have hreads : c.roundReads want t done = got.length := by
      rw [← hgot, FileBytes.length_read]
      rfl
    by_cases hnil : got = []
    · subst hnil
      refine ⟨u, copyRound_of_nothing hreads htook hseeks ⟨none, ?_⟩⟩
      unfold copyLoop
      rw [if_neg hmore, hread]
      dsimp only
      rw [if_pos rfl]
    · exact copyRound_of_got hmore hread htook hseeks htransfers hreads hnil
  · -- it fails, which is a read of nothing
    refine ⟨u, copyRound_of_nothing ?_ ?_ hseeks ⟨some e, ?_⟩⟩
    · rw [CopyEnds.roundReads, CopyEnds.offers, hzero, Nat.min_zero, Nat.zero_min]
    · rw [hzero, Nat.min_zero, FileBytes.read_zero] at htook
      exact htook
    · unfold copyLoop
      rw [if_neg hmore, hread]

/-! ## The loop -/

/-- **What every whole round keeps holds where the last one begins.** -/
theorem copyLoop_last {P : Files → ℕ → Prop}
    (keep : ∀ t v done, P t done → c.RoundWhole want t done →
      CopyPassed c t v (c.roundReads want t done) (c.roundWrites want t done) →
      v.transfers = t.transfers + 2 → P v (done + c.roundReads want t done))
    {fuel : ℕ} (start : P t done) (hfuel : want ≤ done + fuel) :
    ∃ u d, P u d ∧ ¬c.RoundWhole want u d ∧
      CopyPassed c u (copyLoop c want fuel t done).files (c.roundReads want u d)
        (c.roundWrites want u d) ∧
      (copyLoop c want fuel t done).done = d + c.roundWrites want u d := by
  induction fuel generalizing t done with
  | zero =>
    -- there are rounds left for every byte, so that none is wanted
    have hzero : c.roundReads want t done = 0 := by
      rw [CopyEnds.roundReads]
      omega
    have hnone : c.roundWrites want t done = 0 := by rw [CopyEnds.roundWrites, hzero, Nat.zero_min]
    refine ⟨t, done, start, fun h => ?_, ?_, ?_⟩
    · rw [CopyEnds.RoundWhole, hzero] at h
      exact absurd h.1 (Nat.lt_irrefl 0)
    · rw [hzero, hnone]
      exact copyPassed_of_took (.none_of_same rfl rfl) rfl
    · rw [hnone]
      rfl
  | succ fuel ih =>
    obtain ⟨v, hround⟩ := copyLoop_round c want fuel t done
    by_cases hwhole : c.RoundWhole want t done
    · obtain ⟨htransfers, hloop⟩ := hround.goes hwhole
      rw [hloop]
      refine ih (keep t v done start hwhole hround.passed htransfers) ?_
      have hreads := hwhole.1
      omega
    · obtain ⟨failure, hloop⟩ := hround.ends hwhole
      rw [hloop]
      exact ⟨t, done, start, hwhole, hround.passed, rfl⟩

/-- **What every round keeps**, the loop keeps. -/
theorem copyLoop_keeps {P : Files → ℕ → Prop}
    (keep : ∀ t v done, P t done →
      CopyPassed c t v (c.roundReads want t done) (c.roundWrites want t done) →
        P v (done + c.roundWrites want t done))
    {fuel : ℕ} (start : P t done) (hfuel : want ≤ done + fuel) :
    P (copyLoop c want fuel t done).files (copyLoop c want fuel t done).done := by
  have hwhole : ∀ t v done, P t done → c.RoundWhole want t done →
      CopyPassed c t v (c.roundReads want t done) (c.roundWrites want t done) →
      v.transfers = t.transfers + 2 → P v (done + c.roundReads want t done) := by
    intro t v done ht hwhole hpassed _
    have hwrites : c.roundWrites want t done = c.roundReads want t done :=
      Nat.min_eq_left hwhole.2
    rw [← hwrites]
    exact keep t v done ht hpassed
  obtain ⟨u, d, hu, -, hpassed, hdone⟩ := copyLoop_last hwhole start hfuel
  rw [hdone]
  exact keep u _ d hu hpassed

end Rounds

/-! ## The seeks -/

/-- The two seeks that place a description succeed, from the `k`-th on. -/
def Placeable (env : FileEnv) (k : ℕ) (off : Option Int) : Prop :=
  ∀ o ∈ off, env.seekFails k = none ∧ env.seekFails (k + 1) = none ∧ 0 ≤ o

instance (env : FileEnv) (k : ℕ) (off : Option Int) : Decidable (Placeable env k off) :=
  inferInstanceAs (Decidable (∀ o ∈ off, _))

/-- How many seeks place a description, or put it back. -/
def seeksOf (given : Bool) : ℕ := if given then 2 else 0

/-- A description is where its transfer begins. -/
def Files.placed (s : Files) (d : Fin okmMaxDesc) (off : Option Int) : Files :=
  { s with
    pos := Function.update s.pos d (startOf s d off)
    seeks := s.seeks + seeksOf off.isSome }

@[simp] theorem Files.placed_pos_self (s : Files) (d : Fin okmMaxDesc) (off : Option Int) :
    (s.placed d off).pos d = startOf s d off := Function.update_self ..

theorem Files.placed_pos_of_ne {s : Files} {d e : Fin okmMaxDesc} (h : e ≠ d) (off : Option Int) :
    (s.placed d off).pos e = s.pos e := Function.update_of_ne h ..

section Seeks

variable {env : FileEnv} {s : Files} {d : Fin okmMaxDesc} {off : Option Int}

/-- Where a description can be placed, its position is learnt. -/
theorem placeAt_of_placeable (d : Fin okmMaxDesc) (h : Placeable env s.seeks off) :
    ∃ keep, placeAt env s d off = (s.placed d off, .ok keep) ∧
      (off.isSome = true → keep = s.pos d) := by
  cases off with
  | none =>
    refine ⟨0, ?_, nofun⟩
    rw [Files.placed, startOf, Function.update_eq_self]
    rfl
  | some o =>
    obtain ⟨hcur, hset, hpos⟩ := h o rfl
    refine ⟨s.pos d, ?_, fun _ => rfl⟩
    simp only [placeAt, Files.seekCur, Files.seekSet, hcur, hset, if_neg (not_lt.mpr hpos)]
    rfl

/-- Where a description cannot be placed, it is where it was. -/
theorem placeAt_of_not_placeable (d : Fin okmMaxDesc) (h : ¬Placeable env s.seeks off) :
    ∃ u, placeAt env s d off = (u, .error .eio) ∧ u.pos = s.pos := by
  cases off with
  | none => exact absurd (fun o ho => by cases ho) h
  | some o =>
    simp only [placeAt, Files.seekCur, Files.seekSet]
    cases hcur : env.seekFails s.seeks with
    | some e => exact ⟨_, rfl, rfl⟩
    | none =>
      cases hset : env.seekFails (s.seeks + 1) with
      | some e => exact ⟨_, rfl, rfl⟩
      | none =>
        by_cases hneg : o < 0
        · simp only [if_pos hneg]
          exact ⟨_, rfl, rfl⟩
        · refine absurd (fun o' ho' => ?_) h
          cases ho'
          exact ⟨hcur, hset, not_lt.mp hneg⟩

theorem putBack_file (keep : ℕ) (given : Bool) : (putBack env s d keep given).file = s.file := by
  unfold putBack
  split_ifs
  · unfold Files.seekSet Files.seekCur
    dsimp only
    split
    · rfl
    · split_ifs <;> rfl
  · rfl

theorem putBack_seeks (keep : ℕ) (given : Bool) :
    (putBack env s d keep given).seeks = s.seeks + seeksOf given := by
  unfold putBack seeksOf
  split_ifs
  · unfold Files.seekSet Files.seekCur
    dsimp only
    split
    · rfl
    · split_ifs <;> rfl
  · rfl

/-- A position is put back where the second seek succeeds. -/
theorem putBack_pos (keep : ℕ) (given : Bool) : (putBack env s d keep given).pos =
    if given = true ∧ env.seekFails (s.seeks + 1) = none then Function.update s.pos d keep
    else s.pos := by
  unfold putBack
  by_cases hgiven : given = true
  · have hneg : ¬(keep : Int) < 0 := not_lt.mpr (Int.natCast_nonneg keep)
    rw [if_pos hgiven]
    simp only [hgiven, true_and, Files.seekSet, Files.seekCur]
    cases env.seekFails (s.seeks + 1) with
    | some e => rfl
    | none =>
      simp only [if_neg hneg, if_true]
      rfl
  · rw [if_neg hgiven, if_neg fun h => hgiven h.1]

end Seeks

/-! ## The call, by its loop -/

namespace Looped

variable {l : Looped}

theorem result_ok {n : ℕ} (h : l.result = .ok n) : l.done = n := by
  unfold result at h
  split_ifs at h with hpos
  · exact Except.ok.inj h
  · cases hfailure : l.failure with
    | some e => simp [hfailure] at h
    | none =>
      simp only [hfailure, Except.ok.injEq] at h
      omega

theorem result_error {e : Errno} (h : l.result = .error e) : l.done = 0 := by
  unfold result at h
  split_ifs at h with hpos
  omega

theorem result_cases : (l.result = .ok l.done) ∨ l.done = 0 ∧ ∃ e, l.result = .error e := by
  cases h : l.result with
  | ok n => exact Or.inl (by rw [result_ok h])
  | error e => exact Or.inr ⟨result_error h, e, rfl⟩

end Looped

theorem Cells.advance_apply (cells : Cells) (off : Option ℕ) (n p : ℕ) :
    cells.advance off n p = if some p = off then cells p + n else cells p := by
  cases off with
  | none => rfl
  | some q =>
    by_cases hpq : p = q
    · rw [hpq, if_pos rfl, Cells.advance, Function.update_self]
    · rw [if_neg (mt Option.some.inj hpq), Cells.advance, Function.update_of_ne hpq]

/-- One variable for both offsets is advanced twice. -/
theorem advance_advance_iff {cells : Cells} {offIn offOut : Option ℕ} {n : ℕ} :
    (∀ p, (cells.advance offIn n).advance offOut n p =
        if some p = offIn ∨ some p = offOut then cells p + n else cells p) ↔
      (offIn.isSome → offIn = offOut → n = 0) := by
  simp only [Cells.advance_apply]
  constructor
  · -- at the one variable the two advances add up
    rintro h hsome rfl
    obtain ⟨p, rfl⟩ := Option.isSome_iff_exists.mp hsome
    have hp := h p
    simp only [if_true, or_self] at hp
    omega
  · intro h p
    by_cases hin : some p = offIn
    · by_cases hout : some p = offOut
      · have hzero := h (hin ▸ rfl) (hin.symm.trans hout)
        rw [if_pos hout, if_pos hin, if_pos (Or.inl hin), hzero, Nat.cast_zero, Int.add_zero]
      · rw [if_neg hout, if_pos hin, if_pos (Or.inl hin)]
    · simp only [hin, if_false, false_or]

example : Cells.advance (Cells.advance (fun _ => 0) (some 7) 5) (some 7) 5 7 = 10 := by decide

/-- What the call says that it does, of a loop that copied `n` bytes and the files that are left. -/
structure CopySaid (c : CopyEnds) (offIn offOut : Option ℕ) (cells : Cells) (s : Files) (n : ℕ)
    (v : Files) : Prop where
  bytes : startOf s c.from_ (offIn.map cells) + n ≤ (s.under c.env c.from_).size ∨ n = 0
  file : v.file =
    copiedTo c (startOf s c.from_ (offIn.map cells)) (startOf s c.into (offOut.map cells)) n s
  apart : offIn.isSome → offIn = offOut → n = 0
  posIn : v.pos c.from_ = if offIn.isSome then s.pos c.from_ else s.pos c.from_ + n
  posOut : v.pos c.into = if offOut.isSome then s.pos c.into else s.pos c.into + n

section Calls

variable {c : CopyEnds} {offIn offOut : Option ℕ} {cells : Cells} {s : Files}

theorem copiedTo_zero (c : CopyEnds) (a b : ℕ) (s : Files) : copiedTo c a b 0 s = s.file := by
  rw [copiedTo, FileBytes.read_zero, FileBytes.write_nil, Files.under, Function.update_eq_self]

/-- A failure is reported where nothing was copied, so that the same is said of it. -/
theorem said_iff_copySaid {l : Looped} {v : Files} (hnone : l.done = 0 → v.file = s.file) :
    Said c offIn offOut cells s
        ⟨v, l.result, (cells.advance offIn l.done).advance offOut l.done⟩ ↔
      CopySaid c offIn offOut cells s l.done v := by
  rcases l.result_cases with hok | ⟨hzero, e, he⟩
  · -- a number is returned, which is what was copied
    constructor
    · exact fun h => ⟨h.bytes _ hok, h.files _ hok, advance_advance_iff.mp (h.offsets _ hok),
        h.posIn _ hok, h.posOut _ hok⟩
    · intro h
      refine ⟨fun n hn => ?_, fun n hn => ?_, fun n hn => ?_, fun n hn => ?_, fun n hn => ?_,
        fun e he => ?_⟩
      · exact Looped.result_ok hn ▸ h.bytes
      · exact Looped.result_ok hn ▸ h.file
      · exact Looped.result_ok hn ▸ advance_advance_iff.mpr h.apart
      · exact Looped.result_ok hn ▸ h.posIn
      · exact Looped.result_ok hn ▸ h.posOut
      · rw [hok] at he
        cases he
  · -- a failure is, and nothing was copied
    rw [he, hzero]
    have hcells : (cells.advance offIn 0).advance offOut 0 = cells := by
      funext p
      simp [Cells.advance_apply]
    rw [hcells]
    constructor
    · intro h
      obtain ⟨-, hin, hout⟩ := h.failed e rfl
      refine ⟨Or.inr rfl, ?_, fun _ _ => rfl, ?_, ?_⟩
      · rw [copiedTo_zero]
        exact hnone hzero
      · rw [Nat.add_zero, ite_self]
        exact hin
      · rw [Nat.add_zero, ite_self]
        exact hout
    · intro h
      refine ⟨nofun, nofun, nofun, nofun, nofun, fun _ _ => ⟨rfl, ?_, ?_⟩⟩
      · rw [h.posIn, Nat.add_zero, ite_self]
      · rw [h.posOut, Nat.add_zero, ite_self]

/-- The seek that puts the input's position back succeeds. -/
def BackIn (c : CopyEnds) (offIn offOut : Option ℕ) (s : Files) : Prop :=
  offIn.isSome = true ∧
    c.env.seekFails (s.seeks + seeksOf offIn.isSome + seeksOf offOut.isSome + 1) = none

/-- The seek that puts the output's position back succeeds. -/
def BackOut (c : CopyEnds) (offIn offOut : Option ℕ) (s : Files) : Prop :=
  offOut.isSome = true ∧ c.env.seekFails
    (s.seeks + seeksOf offIn.isSome + seeksOf offOut.isSome + seeksOf offIn.isSome + 1) = none

theorem not_backIn_none : ¬BackIn c none offOut s := fun h => nomatch h.1

theorem not_backOut_none : ¬BackOut c offIn none s := fun h => nomatch h.1

instance : Decidable (BackIn c offIn offOut s) := inferInstanceAs (Decidable (_ ∧ _))

instance : Decidable (BackOut c offIn offOut s) := inferInstanceAs (Decidable (_ ∧ _))

/-- Both descriptions are where the copy begins. -/
def placedBoth (c : CopyEnds) (offIn offOut : Option ℕ) (cells : Cells) (s : Files) : Files :=
  (s.placed c.from_ (offIn.map cells)).placed c.into (offOut.map cells)

/-- The loop does not seek. -/
theorem copyLoop_seeks {want : ℕ} (t : Files) : (copyLoop c want want t 0).files.seeks = t.seeks :=
  copyLoop_keeps (P := fun u _ => u.seeks = t.seeks)
    (fun _ _ _ hu hpassed => hpassed.seeks.trans hu) rfl (Nat.le_add_left _ _)

/-- The positions once they are put back. -/
def broughtBack (c : CopyEnds) (offIn offOut : Option ℕ) (cells : Cells) (s : Files)
    (pos : Fin okmMaxDesc → ℕ) : Fin okmMaxDesc → ℕ :=
  let back := if BackIn c offIn offOut s then Function.update pos c.from_ (s.pos c.from_) else pos
  if BackOut c offIn offOut s then
    Function.update back c.into ((s.placed c.from_ (offIn.map cells)).pos c.into)
  else back

/-- **The call, of descriptions that can be placed**: the loop, and what is put back. -/
theorem copyFiles_of_placeable (want : ℕ) {l : Looped}
    (hl : copyLoop c want want (placedBoth c offIn offOut cells s) 0 = l)
    (hin : Placeable c.env s.seeks (offIn.map cells))
    (hout : Placeable c.env (s.seeks + seeksOf offIn.isSome) (offOut.map cells)) :
    ∃ v, copyFiles c offIn offOut want cells s =
        ⟨v, l.result, (cells.advance offIn l.done).advance offOut l.done⟩ ∧
      v.file = l.files.file ∧ v.pos = broughtBack c offIn offOut cells s l.files.pos := by
  obtain ⟨keepIn, hplaceIn, hkeepIn⟩ := placeAt_of_placeable c.from_ hin
  have hout' : Placeable c.env (s.placed c.from_ (offIn.map cells)).seeks (offOut.map cells) := by
    rw [Files.placed, Option.isSome_map]
    exact hout
  obtain ⟨keepOut, hplaceOut, hkeepOut⟩ := placeAt_of_placeable c.into hout'
  rw [Option.isSome_map] at hkeepIn hkeepOut
  have hseeks : l.files.seeks = s.seeks + seeksOf offIn.isSome + seeksOf offOut.isSome := by
    rw [← hl, copyLoop_seeks, placedBoth, Files.placed, Files.placed, Option.isSome_map,
      Option.isSome_map]
  refine ⟨putBack c.env (putBack c.env l.files c.from_ keepIn offIn.isSome) c.into keepOut
    offOut.isSome, ?_, ?_, ?_⟩
  · unfold copyFiles
    rw [hplaceIn]
    dsimp only
    rw [hplaceOut]
    dsimp only
    rw [← placedBoth, hl]
  · rw [putBack_file, putBack_file]
  · rw [putBack_pos, putBack_seeks, putBack_pos, hseeks]
    show (if BackOut c offIn offOut s then Function.update
        (if BackIn c offIn offOut s then Function.update l.files.pos c.from_ keepIn
          else l.files.pos) c.into keepOut
      else if BackIn c offIn offOut s then Function.update l.files.pos c.from_ keepIn
        else l.files.pos) = broughtBack c offIn offOut cells s l.files.pos
    have hback : (if BackIn c offIn offOut s then Function.update l.files.pos c.from_ keepIn
        else l.files.pos) = if BackIn c offIn offOut s then
          Function.update l.files.pos c.from_ (s.pos c.from_) else l.files.pos := by
      split_ifs with h
      · rw [hkeepIn h.1]
      · rfl
    rw [hback, broughtBack]
    by_cases h : BackOut c offIn offOut s
    · rw [if_pos h, if_pos h, hkeepOut h.1]
    · rw [if_neg h, if_neg h]

/-- **The call, of an input that cannot be placed**, changes nothing. -/
theorem copyFiles_of_not_placeable (want : ℕ)
    (hin : ¬Placeable c.env s.seeks (offIn.map cells)) :
    ∃ u, copyFiles c offIn offOut want cells s = ⟨u, .error .eio, cells⟩ ∧ u.pos = s.pos := by
  obtain ⟨u, hplace, hpos⟩ := placeAt_of_not_placeable c.from_ hin
  refine ⟨u, ?_, hpos⟩
  unfold copyFiles
  rw [hplace]

/-- **The call, of an output that cannot be placed**, leaves the input where it was placed. -/
theorem copyFiles_of_not_placeable_out (want : ℕ) (hin : Placeable c.env s.seeks (offIn.map cells))
    (hout : ¬Placeable c.env (s.seeks + seeksOf offIn.isSome) (offOut.map cells)) :
    ∃ u, copyFiles c offIn offOut want cells s = ⟨u, .error .eio, cells⟩ ∧
      u.pos = Function.update s.pos c.from_ (startOf s c.from_ (offIn.map cells)) := by
  obtain ⟨keepIn, hplaceIn, -⟩ := placeAt_of_placeable c.from_ hin
  have hout' : ¬Placeable c.env (s.placed c.from_ (offIn.map cells)).seeks (offOut.map cells) := by
    rw [Files.placed, Option.isSome_map]
    exact hout
  obtain ⟨u, hplaceOut, hpos⟩ := placeAt_of_not_placeable c.into hout'
  refine ⟨u, ?_, hpos⟩
  unfold copyFiles
  rw [hplaceIn]
  dsimp only
  rw [hplaceOut]

end Calls

end OpenkalMusl
