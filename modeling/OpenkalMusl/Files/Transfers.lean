import OpenkalMusl.Files.Positions

/-!
# A transfer at an offset

`pread`, `pwrite` and their gathered forms (`do_transfer_at`). Where the environment transfers at an
offset, each buffer is one such transfer, at the offset and what was moved so far; where it does
not, the position is moved to the offset, the buffers are transferred one after another from the
position, and it is moved back.

## Main definitions

* `moveAt`, `moveStream`: the transfer of one buffer, in the one form and the other
* `transferAt`, `transferStream`: of all buffers
* `doTransferAt`: the call

## Main results

* `moveStream_eq`: one buffer, transferred from a position, is transferred at an offset
* `transfer_forms_agree`: the two forms of a call agree, and leave the positions where they were
-/

namespace OpenkalMusl

/-- What the transfer of one buffer leaves: the environment, the count, and the buffer. -/
structure Moved where
  files : Files
  result : Except Errno ℕ
  buffer : List UInt8

/-- What the transfer of all buffers leaves. -/
structure Transferred where
  files : Files
  result : Except Errno ℕ
  buffers : List (List UInt8)

/-- The beginning of a buffer is filled. -/
def filled (buffer got : List UInt8) : List UInt8 := got ++ buffer.drop got.length

/-- What a read leaves of a buffer. -/
def Moved.ofRead (buffer : List UInt8) : Files × Except Errno (List UInt8) → Moved
  | (s, .ok got) => ⟨s, .ok got.length, filled buffer got⟩
  | (s, .error e) => ⟨s, .error e, buffer⟩

/-- A buffer is transferred at an offset. -/
def moveAt (env : FileEnv) (writing : Bool) (d : Fin okmMaxDesc) (s : Files) (off : ℕ)
    (buffer : List UInt8) : Moved :=
  if writing then
    let r := s.writeAt env d off buffer
    ⟨r.1, r.2.mapError okmErrno, buffer⟩
  else
    let r := s.readAt env d off buffer.length
    .ofRead buffer (r.1, r.2.mapError okmErrno)

/-- A buffer is transferred from the position. -/
def moveStream (env : FileEnv) (nonblock writing : Bool) (d : Fin okmMaxDesc) (s : Files)
    (buffer : List UInt8) : Moved :=
  if writing then
    let r := doWriteFile env nonblock s d buffer
    ⟨r.1, r.2, buffer⟩
  else .ofRead buffer (doReadFile env nonblock s d buffer.length)

/-- One buffer more was transferred, before the others. -/
def Transferred.after (t : Transferred) (buffer : List UInt8) : Transferred :=
  { t with buffers := buffer :: t.buffers }

/-- The buffers, one after another, until one is not filled; `move` is the transfer of one, after so
many bytes. An error is reported where nothing was moved before it. -/
def transferLoop (move : Files → ℕ → List UInt8 → Moved) :
    List (List UInt8) → Files → ℕ → Transferred
  | [], s, total => ⟨s, .ok total, []⟩
  | buffer :: v, s, total =>
    if buffer.length = 0 then (transferLoop move v s total).after buffer
    else
      let m := move s total buffer
      match m.result with
      | .error e => ⟨m.files, if total = 0 then .error e else .ok total, m.buffer :: v⟩
      | .ok n =>
        if n < buffer.length then ⟨m.files, .ok (total + n), m.buffer :: v⟩
        else (transferLoop move v m.files (total + n)).after m.buffer

/-- `transfer_at`. -/
def transferAt (env : FileEnv) (writing : Bool) (d : Fin okmMaxDesc) (off : ℕ)
    (v : List (List UInt8)) (s : Files) : Transferred :=
  transferLoop (fun s total buffer => moveAt env writing d s (off + total) buffer) v s 0

/-- The buffers, transferred from the position. -/
def transferStream (env : FileEnv) (nonblock writing : Bool) (d : Fin okmMaxDesc)
    (v : List (List UInt8)) (s : Files) : Transferred :=
  transferLoop (fun s _ buffer => moveStream env nonblock writing d s buffer) v s 0

/-- A transfer is refused. -/
def Files.refuse (s : Files) (e : Errno) (v : List (List UInt8)) : Transferred := ⟨s, .error e, v⟩

/-- The form of `do_transfer_at` that seeks; both seeks come before anything is moved. -/
def seekTransfer (env : FileEnv) (nonblock writing : Bool) (d : Fin okmMaxDesc) (off : ℕ)
    (v : List (List UInt8)) (s : Files) : Transferred :=
  let cur := s.seekCur env d
  match cur.2 with
  | .error e => cur.1.refuse (okmErrno e) v
  | .ok keep =>
    let set := cur.1.seekSet env d off
    match set.2 with
    | .error e => set.1.refuse (okmErrno e) v
    | .ok _ =>
      let t := transferStream env nonblock writing d v set.1
      { t with files := (t.files.seekSet env d keep).1 }

/-- `do_transfer_at`; `available` is whether the environment transfers at an offset, and a negative
number of buffers is `none`. -/
def doTransferAt (env : FileEnv) (available : Bool) (w : PortState) (s : Files) (fd : Int)
    (v : Option (List (List UInt8))) (at_ : Int) (writing : Bool) : Transferred :=
  match w.okmDescOf fd with
  | none => s.refuse .ebadf (v.getD [])
  | some d =>
    match (w.desc d).kind with
    | .null =>
      match v with
      | none => s.refuse .einval []
      | some v =>
        if at_ < 0 then s.refuse .einval v
        else ⟨s, .ok (if writing then (v.map List.length).sum else 0), v⟩
    | .file =>
      match v with
      | none => s.refuse .einval []
      | some v =>
        if at_ < 0 then s.refuse .einval v
        else if available then transferAt env writing d at_.toNat v s
        else seekTransfer env (hasFlag (w.desc d).flags oNonblock) writing d at_.toNat v s
    | _ => s.refuse .espipe (v.getD [])

/-! ## The two forms -/

section Forms

/-- Two loops whose transfers of one buffer agree, and keep the environments related, agree. -/
theorem transferLoop_agree {move move' : Files → ℕ → List UInt8 → Moved}
    {R : ℕ → Files → Files → Prop}
    (hmove : ∀ s s' total buffer, buffer.length ≠ 0 → R total s s' →
      (move s total buffer).result = (move' s' total buffer).result ∧
        (move s total buffer).buffer = (move' s' total buffer).buffer ∧
        R (total + ((move s total buffer).result.toOption.getD 0)) (move s total buffer).files
          (move' s' total buffer).files)
    (v : List (List UInt8)) {s s' : Files} {total : ℕ} (h : R total s s') :
    (transferLoop move v s total).result = (transferLoop move' v s' total).result ∧
      (transferLoop move v s total).buffers = (transferLoop move' v s' total).buffers ∧
      ∃ moved, R moved (transferLoop move v s total).files
        (transferLoop move' v s' total).files := by
  induction v generalizing s s' total with
  | nil => exact ⟨rfl, rfl, total, h⟩
  | cons buffer v ih =>
    unfold transferLoop
    -- an empty buffer is passed over, and a short one is the last
    by_cases hempty : buffer.length = 0
    · obtain ⟨hresult, hbuffers, hrel⟩ := ih h
      rw [if_pos hempty, if_pos hempty]
      exact ⟨hresult, congrArg (buffer :: ·) hbuffers, hrel⟩
    · obtain ⟨hresult, hbuffer, hrel⟩ := hmove s s' total buffer hempty h
      rw [if_neg hempty, if_neg hempty]
      dsimp only
      rw [← hresult, ← hbuffer]
      cases hm : (move s total buffer).result with
      | error e => exact ⟨rfl, rfl, _, hrel⟩
      | ok n =>
        rw [hm] at hrel
        dsimp only
        by_cases hshort : n < buffer.length
        · rw [if_pos hshort, if_pos hshort]
          exact ⟨rfl, rfl, _, hrel⟩
        · obtain ⟨hresult, hbuffers, hrest⟩ := ih hrel
          rw [if_neg hshort, if_neg hshort]
          exact ⟨hresult, congrArg (_ :: ·) hbuffers, hrest⟩

variable {env : FileEnv} {d : Fin okmMaxDesc}

/-- The environment beside one that differs from it in the position of `d` only, which is `p`. -/
structure Beside (d : Fin okmMaxDesc) (p : ℕ) (s s' : Files) : Prop where
  file : s'.file = s.file
  transfers : s'.transfers = s.transfers
  pos : s'.pos d = p
  others : ∀ e, e ≠ d → s'.pos e = s.pos e

theorem Beside.moved {p q : ℕ} {s s' t t' : Files} (h : Beside d p s s') (hfile : t'.file = t.file)
    (htransfers : t'.transfers = t.transfers) (hpos : t.pos = s.pos) (hpos' : t'.pos = s'.pos) :
    Beside d q t (t'.moveTo d q) where
  file := hfile
  transfers := htransfers
  pos := Files.moveTo_self t' d q
  others e he := by rw [Files.moveTo_of_ne he, hpos', hpos, h.others e he]

/-- A read from the position. -/
theorem readStream_eq {p : ℕ} {s s' : Files} (h : Beside d p s s') {buffer : List UInt8}
    (hlen : buffer.length ≠ 0) :
    (moveAt env false d s p buffer).result = (moveStream env false false d s' buffer).result ∧
      (moveAt env false d s p buffer).buffer = (moveStream env false false d s' buffer).buffer ∧
      (moveAt env false d s p buffer).files.pos = s.pos ∧
      Beside d (p + ((moveAt env false d s p buffer).result.toOption.getD 0))
        (moveAt env false d s p buffer).files (moveStream env false false d s' buffer).files := by
  have hunder : s'.under env d = s.under env d := congrFun h.file _
  have hanswer : env.answer s'.transfers = env.answer s.transfers := by rw [h.transfers]
  have htransfers : s'.transfers + 1 = s.transfers + 1 := by rw [h.transfers]
  unfold moveAt moveStream doReadFile Files.streamRead Files.readAt
  simp only [Bool.false_eq_true, if_false, if_neg hlen, Bool.false_and, hunder, hanswer, h.pos]
  cases env.answer s.transfers with
  | fails e =>
    refine ⟨rfl, rfl, rfl, ?_⟩
    exact ⟨h.file, htransfers, h.pos, h.others⟩
  | moves most => exact ⟨rfl, rfl, rfl, h.moved h.file htransfers rfl rfl⟩

/-- A write from the position of a description that does not append. -/
theorem writeStream_eq (happend : env.appends d = false) {p : ℕ} {s s' : Files}
    (h : Beside d p s s') {buffer : List UInt8} (hlen : buffer.length ≠ 0) :
    (moveAt env true d s p buffer).result = (moveStream env false true d s' buffer).result ∧
      (moveAt env true d s p buffer).buffer = (moveStream env false true d s' buffer).buffer ∧
      (moveAt env true d s p buffer).files.pos = s.pos ∧
      Beside d (p + ((moveAt env true d s p buffer).result.toOption.getD 0))
        (moveAt env true d s p buffer).files (moveStream env false true d s' buffer).files := by
  have hunder : s'.under env d = s.under env d := congrFun h.file _
  have hanswer : env.answer s'.transfers = env.answer s.transfers := by rw [h.transfers]
  have htransfers : s'.transfers + 1 = s.transfers + 1 := by rw [h.transfers]
  have hne : buffer ≠ [] := fun hnil => hlen (List.length_eq_zero_iff.mpr hnil)
  unfold moveAt moveStream doWriteFile Files.streamWrite Files.writeAt
  simp only [if_true, if_neg hne, Bool.false_and, Bool.false_eq_true, if_false, happend, hunder,
    hanswer, h.pos]
  cases env.answer s.transfers with
  | fails e =>
    refine ⟨rfl, trivial, rfl, ?_⟩
    exact ⟨h.file, htransfers, h.pos, h.others⟩
  | moves most =>
    have hplace : (if (buffer.take most).length = 0 then p else p + (buffer.take most).length) =
        p + (buffer.take most).length := by
      split_ifs <;> omega
    dsimp only
    rw [hplace]
    refine ⟨rfl, trivial, rfl, h.moved ?_ htransfers rfl rfl⟩
    dsimp only
    rw [h.file]

/-- **One buffer**, transferred from the position, is transferred at an offset. -/
theorem moveStream_eq (happend : env.appends d = false) {p : ℕ} {s s' : Files}
    (h : Beside d p s s') (writing : Bool) {buffer : List UInt8} (hlen : buffer.length ≠ 0) :
    (moveAt env writing d s p buffer).result = (moveStream env false writing d s' buffer).result ∧
      (moveAt env writing d s p buffer).buffer = (moveStream env false writing d s' buffer).buffer ∧
      (moveAt env writing d s p buffer).files.pos = s.pos ∧
      Beside d (p + ((moveAt env writing d s p buffer).result.toOption.getD 0))
        (moveAt env writing d s p buffer).files
          (moveStream env false writing d s' buffer).files := by
  cases writing with
  | false => exact readStream_eq h hlen
  | true => exact writeStream_eq happend h hlen

/-- All buffers, transferred from a position, are transferred at an offset. -/
theorem transferStream_eq (happend : env.appends d = false) (writing : Bool) {off : ℕ}
    {s s' : Files} (h : Beside d off s s') (v : List (List UInt8)) :
    (transferAt env writing d off v s).result =
        (transferStream env false writing d v s').result ∧
      (transferAt env writing d off v s).buffers =
        (transferStream env false writing d v s').buffers ∧
      (transferAt env writing d off v s).files.pos = s.pos ∧
      ∃ p, Beside d p (transferAt env writing d off v s).files
        (transferStream env false writing d v s').files := by
  -- the position is as far on as the loop has come
  have hloop := @transferLoop_agree
    (fun s total buffer => moveAt env writing d s (off + total) buffer)
    (fun s _ buffer => moveStream env false writing d s buffer)
    (fun total t t' => t.pos = s.pos ∧ Beside d (off + total) t t')
    (fun t t' total buffer hlen hrel => by
      obtain ⟨hresult, hbuffer, hpos, hbeside⟩ := moveStream_eq happend hrel.2 writing hlen
      refine ⟨hresult, hbuffer, hpos.trans hrel.1, ?_⟩
      rwa [← Nat.add_assoc])
    v s s' 0 ⟨rfl, h⟩
  obtain ⟨hresult, hbuffers, moved, hpos, hbeside⟩ := hloop
  exact ⟨hresult, hbuffers, hpos, off + moved, hbeside⟩

theorem seekCur_eq (hseek : ∀ n, env.seekFails n = none) (s : Files) :
    s.seekCur env d = ({ s with seeks := s.seeks + 1 }, .ok (s.pos d)) := by
  simp only [Files.seekCur, hseek]

theorem seekSet_eq (hseek : ∀ n, env.seekFails n = none) (s : Files) (p : ℕ) :
    s.seekSet env d p = ({ s with seeks := s.seeks + 1 }.moveTo d p, .ok p) := by
  have hpos : ¬(p : Int) < 0 := by omega
  simp only [Files.seekSet, hseek, if_neg hpos, Int.toNat_natCast]

/-- **The two forms agree.** Of a description that does not append and does not decline to wait, and
where the seeks succeed, the form that seeks returns what the other does, fills the same buffers and
makes the same change to the files; and both leave every position where it was. -/
theorem transfer_forms_agree {w : PortState} {fd : Int} (hd : w.okmDescOf fd = some d)
    (hkind : (w.desc d).kind = .file) (hblock : hasFlag (w.desc d).flags oNonblock = false)
    (happend : env.appends d = false) (hseek : ∀ n, env.seekFails n = none) (s : Files)
    (v : List (List UInt8)) {off : Int} (hoff : 0 ≤ off) (writing : Bool) :
    (doTransferAt env false w s fd (some v) off writing).result =
        (doTransferAt env true w s fd (some v) off writing).result ∧
      (doTransferAt env false w s fd (some v) off writing).buffers =
        (doTransferAt env true w s fd (some v) off writing).buffers ∧
      (doTransferAt env false w s fd (some v) off writing).files.file =
        (doTransferAt env true w s fd (some v) off writing).files.file ∧
      (doTransferAt env true w s fd (some v) off writing).files.pos = s.pos ∧
      (doTransferAt env false w s fd (some v) off writing).files.pos = s.pos := by
  have hneg : ¬off < 0 := Int.not_lt.mpr hoff
  obtain ⟨p, rfl⟩ := Int.eq_ofNat_of_zero_le hoff
  unfold doTransferAt
  simp only [hd, hkind, hblock, if_neg hneg, if_true, Bool.false_eq_true, if_false,
    Int.toNat_natCast]
  unfold seekTransfer
  simp only [seekCur_eq hseek, seekSet_eq hseek]
  have hstart : Beside d p s
      ({ s with seeks := s.seeks + 1 + 1 }.moveTo d p) := by
    exact ⟨rfl, rfl, Files.moveTo_self _ d p, fun e he => Files.moveTo_of_ne he p⟩
  obtain ⟨hresult, hbuffers, hpos, q, hbeside⟩ := transferStream_eq happend writing hstart v
  refine ⟨hresult.symm, hbuffers.symm, hbeside.file, hpos, ?_⟩
  -- the position is put back
  funext e
  by_cases he : e = d
  · subst he
    exact Files.moveTo_self _ e _
  · exact (Files.moveTo_of_ne he _).trans ((hbeside.others e he).trans (congrFun hpos e))

end Forms

/-- A table in which number 3 is a file opened for reading and writing. -/
def oneFileTable : PortState :=
  ((PortState.okmTableInit 1 .supplied).okmFdBind 1 3 .file 70 71 0 oRdwr).1

/-- An environment that moves two bytes at a time, and in the third transfer fails. -/
def twoAtATime : FileEnv where
  fileOf := fun _ => 0
  appends := fun _ => false
  answer := fun n => if n = 2 then .fails .io else .moves 2
  seekFails := fun _ => none
  bounded := false

/-- A file of five bytes, with every position at its second. -/
def fiveBytes : Files where
  file := fun _ => FileBytes.empty.write 0 [10, 11, 12, 13, 14]
  pos := fun _ => 1

/-- Three buffers, of which one is empty and the last is not filled. -/
theorem transfer_forms_agree_gathered :
    (doTransferAt twoAtATime false oneFileTable fiveBytes 3 (some [[0, 0], [], [0, 0, 0]]) 2
        false).buffers = [[12, 13], [], [14, 0, 0]] ∧
      (doTransferAt twoAtATime true oneFileTable fiveBytes 3 (some [[0, 0], [], [0, 0, 0]]) 2
        false).buffers = [[12, 13], [], [14, 0, 0]] := by
  have hagree := (@transfer_forms_agree twoAtATime ⟨3, by decide⟩ oneFileTable 3
    (by decide +kernel) (by decide +kernel) (by decide +kernel) rfl
    (fun _ => rfl) fiveBytes [[0, 0], [], [0, 0, 0]] 2 (by decide) false).2.1
  have hfilled : (doTransferAt twoAtATime true oneFileTable fiveBytes 3
      (some [[0, 0], [], [0, 0, 0]]) 2 false).buffers = [[12, 13], [], [14, 0, 0]] := by
    decide +kernel
  exact ⟨hagree.trans hfilled, hfilled⟩

end OpenkalMusl
