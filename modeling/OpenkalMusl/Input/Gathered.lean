import OpenkalMusl.Input.Conservation

/-!
# A read into several buffers

`readv`, and `recvmsg` of a stream, read into one buffer after another and go on to the next where
one was filled. They cannot tell a buffer that was filled from what had arrived to the last byte, so
where a message ends with a buffer they ask for more, and wait for it.

What a stream yields is a list of what comes of it (`Arrival`), and the environment answers a read
out of what is to come (`inputEnv`).

## Main definitions

* `Arrival`, `inputEnv`: what comes of a stream, and the environment that answers out of it
* `GatherCall.gather`: the loop of both calls, with the reads of the environment that it performs
* `Prompt`: no read waits once there is data, and what is returned is what one buffer would be given
* `GatherCall.ready`: what has arrived for a call
* `Quiet`: a read that neither waits nor gives a byte

## Main results

* `GatherCall.read_congr`: a read of the description performs no other read of the environment
* `GatherCall.gather_readv`: the loop is `readv`
* `GatherCall.gather_resume`: what the loop does once there is data
* `prompt_iff`: when a gathered read does not wait
-/

namespace OpenkalMusl

open PortState

/-! ## What comes of a stream -/

/-- What comes of a stream, one after another. -/
inductive Arrival where
  /-- Bytes that arrive together. -/
  | chunk (first : UInt8) (rest : List UInt8)
  /-- For so many nanoseconds, and one more, nothing arrives. -/
  | pause (ns : ℕ)
  | eof
  | failure (e : KalError)
  deriving DecidableEq

/-- A wait, with a bound or without: whether the bound was kept, and what is to come then. -/
def await : Option ℕ → List Arrival → Bool × List Arrival
  | none, .pause _ :: xs => await none xs
  | some most, .pause ns :: xs =>
    if most ≤ ns + 1 then (false, .pause (ns - most) :: xs) else await (some (most - (ns + 1))) xs
  | _, xs => (true, xs)

/-- The bytes that have arrived together. -/
def arrived : List Arrival → List UInt8
  | .chunk b bs :: _ => b :: bs
  | _ => []

/-- What comes behind them. -/
def behind : List Arrival → List Arrival
  | .chunk _ _ :: xs => xs
  | xs => xs

/-- Bytes that have arrived, before what is to come. -/
def resume (bytes : List UInt8) (xs : List Arrival) : List Arrival :=
  match bytes with
  | [] => xs
  | b :: bs => .chunk b bs :: xs

/-- Nothing has arrived, not even an end. -/
def idle : List Arrival → Bool
  | .pause _ :: _ => true
  | _ => false

/-- What a read is answered. Where nothing more comes, the input has ended. -/
def inputAnswer (bound : Option ℕ) (xs : List Arrival) : Except KalError (List UInt8) :=
  match await bound xs with
  | (false, _) => .error .again
  | (true, .failure e :: _) => .error e
  | (true, xs) => .ok (arrived xs)

/-- What is to come after a read of `len` bytes. -/
def afterRead (bound : Option ℕ) (len : ℕ) (xs : List Arrival) : List Arrival :=
  match await bound xs with
  | (true, .chunk b bs :: xs) => resume ((b :: bs).drop len) xs
  | (true, .eof :: xs) | (true, .failure _ :: xs) => xs
  | (_, xs) => xs

/-- The environment that answers out of what is to come. -/
def inputEnv (base : IoEnv) (xs : List Arrival) : IoEnv :=
  { base with
    timeoutRead := base.timeoutRead.map fun _ ns => inputAnswer (some ns) xs
    streamRead := inputAnswer none xs }

/-! ## The calls -/

/-- A read of the environment that a call performs: its bound, and how many bytes it asks for. -/
structure EnvRead where
  bound : Option ℕ
  len : ℕ

/-- The read that a call performs with a bound or without: none, where nothing can bound it. -/
def askedWith (env : IoEnv) (bound : Option ℕ) (len : ℕ) : Option EnvRead :=
  if bound = none ∨ okmCanBound env then some ⟨bound, len⟩ else none

/-- A call that reads into several buffers. -/
inductive GatherCall where
  | readv (alter : TermAlter) (interactive : Bool)
  /-- The part of `recvmsg` that has a stream. -/
  | recvmsg (flags : ℕ)

namespace GatherCall

/-- The read of one buffer: `do_read`, `okm_sock_recv`. -/
def read (c : GatherCall) (w : PortState) (env : IoEnv) (fd : Int) (len : ℕ) :
    PortState × Except Errno (List UInt8) :=
  match c with
  | .readv alter interactive =>
    let r := w.doRead env alter interactive fd len
    (r.port, r.result)
  | .recvmsg flags =>
    let r := w.okmSockRecv env fd len flags
    (r.port, (r.result.mapError Fault.errno).map (·.data))

/-- The bound of the reads, where nothing is held. -/
def bound (c : GatherCall) (w : PortState) (d : Fin okmMaxDesc) : Option ℕ :=
  match c with
  | .readv .. => if hasFlag (w.desc d).flags oNonblock then some okmNowNs else none
  | .recvmsg flags =>
    match w.sockOf d with
    | none => none
    | some slot =>
      let ns := boundOf (w.desc d) (w.sock slot) flags true
      if ns = 0 then none else some ns

/-- `recvmsg` refuses its flags. -/
def refused : GatherCall → Bool
  | .readv .. => false
  | .recvmsg flags => otherFlags flags (msgNosignal ||| msgDontwait) ≠ 0

/-- Behind a byte that is held, `read` asks for what else has arrived, and `recv` does not. -/
def asksBehind : GatherCall → Bool
  | .readv .. => true
  | .recvmsg _ => false

/-- The read of the environment that the read of one buffer performs, where it performs one. -/
def asks (c : GatherCall) (w : PortState) (d : Fin okmMaxDesc) (env : IoEnv) (len : ℕ) :
    Option EnvRead :=
  if c.refused then none
  else if (w.desc d).ahead then
    if c.asksBehind ∧ 1 < len then askedWith env (some okmNowNs) (len - 1) else none
  else if (w.desc d).aheadEof then none
  else askedWith env (c.bound w d) len

/-- The descriptor has a stream that the call reads. -/
def OnStream (c : GatherCall) (w : PortState) (d : Fin okmMaxDesc) : Prop :=
  match c with
  | .readv .. => (w.desc d).hasStream = true
  | .recvmsg _ =>
    ∃ slot, w.sockOf d = some slot ∧ (w.sock slot).type ≠ sockDgram ∧ (w.sock slot).state = .conn

end GatherCall

/-- A read of the environment that was performed: what had been placed before it, its bound, and
what was to come. -/
structure PerformedRead where
  placed : ℕ
  bound : Option ℕ
  coming : List Arrival
  deriving DecidableEq

/-- It waited, and nothing bounded the wait. -/
def PerformedRead.waits (p : PerformedRead) : Bool := p.bound.isNone && idle p.coming

/-- What a gathered read leaves. -/
structure Gathered where
  port : PortState
  coming : List Arrival
  result : Except Errno (List UInt8)
  performed : List PerformedRead

namespace GatherCall

/-- What the read of one buffer leaves to come. -/
def comesAfter (c : GatherCall) (w : PortState) (d : Fin okmMaxDesc) (env : IoEnv) (len : ℕ)
    (xs : List Arrival) : List Arrival :=
  (c.asks w d env len).elim xs fun a => afterRead a.bound a.len xs

/-- What the read of one buffer performs, of which the buffers before were given `placed` bytes. -/
def performs (c : GatherCall) (w : PortState) (d : Fin okmMaxDesc) (env : IoEnv) (len placed : ℕ)
    (xs : List Arrival) : List PerformedRead :=
  -- a byte that was held has been placed when what else has arrived is asked for
  (c.asks w d env len).toList.map fun a => ⟨placed + (len - a.len), a.bound, xs⟩

/-- The loop of `readv` and of `recvmsg`, of which the buffers before these were given `placed`
bytes. -/
def gather (c : GatherCall) (base : IoEnv) (fd : Int) (d : Fin okmMaxDesc) :
    List ℕ → ℕ → PortState → List Arrival → Gathered
  | [], _, w, xs => ⟨w, xs, .ok [], []⟩
  | len :: v, placed, w, xs =>
    if len = 0 then c.gather base fd d v placed w xs
    else
      let r := c.read w (inputEnv base xs) fd len
      let xs' := c.comesAfter w d (inputEnv base xs) len xs
      let performed := c.performs w d (inputEnv base xs) len placed xs
      match r.2 with
      | .error e => ⟨r.1, xs', .error e, performed⟩
      | .ok bytes =>
        if bytes.length < len then ⟨r.1, xs', .ok bytes, performed⟩
        else
          -- a failure after some bytes is not reported: they are
          let rest := c.gather base fd d v (placed + bytes.length) r.1 xs'
          ⟨rest.port, rest.coming, .ok (bytes ++ givenBytes rest.result),
            performed ++ rest.performed⟩

end GatherCall

/-- **A gathered read is prompt**: no read of the environment waits without a bound after a byte was
placed, and what is returned is what one buffer of the total length would have been given. -/
structure Prompt (g one : Gathered) : Prop where
  waits : ∀ p ∈ g.performed, 0 < p.placed → p.waits = false
  result : g.result = one.result

/-! ## When it is prompt -/

/-- What has arrived for a call, with what is held, and what is to come behind it. -/
def GatherCall.ready (c : GatherCall) (w : PortState) (d : Fin okmMaxDesc) (env : IoEnv)
    (xs : List Arrival) : List UInt8 × List Arrival :=
  if c.refused then ([], xs)
  else if (w.desc d).ahead then
    if c.asksBehind ∧ okmCanBound env then ((w.desc d).aheadByte :: arrived xs, behind xs)
    else ([(w.desc d).aheadByte], xs)
  else if (w.desc d).aheadEof then ([], xs)
  else if (c.bound w d).isSome ∧ ¬okmCanBound env then ([], xs)
  else (arrived (await (c.bound w d) xs).2, behind (await (c.bound w d) xs).2)

/-- So many bytes end with a buffer, and there is room behind it. -/
def EndsBuffer (lens : List ℕ) (n : ℕ) : Prop := n < lens.sum ∧ ∃ k, (lens.take k).sum = n

/-- A read neither waits without a bound nor gives a byte. -/
def Quiet (env : IoEnv) (bound : Option ℕ) (xs : List Arrival) : Prop :=
  (bound = none → idle xs = false) ∧
    (bound = none ∨ okmCanBound env → (inputAnswer bound xs).toOption.getD [] = [])

instance (p : Desc) : Decidable p.HoldsOne := inferInstanceAs (Decidable (¬_))

instance (env : IoEnv) (bound : Option ℕ) (xs : List Arrival) : Decidable (Quiet env bound xs) :=
  inferInstanceAs (Decidable (_ ∧ _))

/-! ## Where buffers end -/

section Buffers

variable {len n : ℕ} {v : List ℕ}

theorem not_endsBuffer_nil : ¬EndsBuffer [] n := fun h => Nat.not_lt_zero n h.1

theorem endsBuffer_zero : EndsBuffer (0 :: v) n ↔ EndsBuffer v n := by
  unfold EndsBuffer
  rw [List.sum_cons, Nat.zero_add]
  refine and_congr_right fun _ => ⟨?_, ?_⟩
  · rintro ⟨k, hk⟩
    cases k with
    | zero => exact ⟨0, hk⟩
    | succ k => exact ⟨k, by rwa [List.take_succ_cons, List.sum_cons, Nat.zero_add] at hk⟩
  · rintro ⟨k, hk⟩
    exact ⟨k + 1, by rwa [List.take_succ_cons, List.sum_cons, Nat.zero_add]⟩

/-- Nothing at all ends before a buffer for which there is room. -/
theorem endsBuffer_nothing (hlen : len ≠ 0) : EndsBuffer (len :: v) 0 :=
  ⟨by rw [List.sum_cons]; omega, 0, rfl⟩

/-- What does not fill a buffer does not end with it. -/
theorem not_endsBuffer_of_lt (hn : n ≠ 0) (h : n < len) : ¬EndsBuffer (len :: v) n := by
  rintro ⟨-, k, hk⟩
  cases k with
  | zero => exact hn hk.symm
  | succ k =>
    rw [List.take_succ_cons, List.sum_cons] at hk
    omega

theorem endsBuffer_cons (hn : n ≠ 0) (h : len ≤ n) :
    EndsBuffer (len :: v) n ↔ EndsBuffer v (n - len) := by
  unfold EndsBuffer
  rw [List.sum_cons]
  refine and_congr (by omega) ⟨?_, ?_⟩
  · rintro ⟨k, hk⟩
    cases k with
    | zero => exact absurd hk.symm hn
    | succ k =>
      rw [List.take_succ_cons, List.sum_cons] at hk
      exact ⟨k, by omega⟩
  · rintro ⟨k, hk⟩
    exact ⟨k + 1, by rw [List.take_succ_cons, List.sum_cons]; omega⟩

end Buffers

/-! ## One read -/

theorem await_of_not_idle (bound : Option ℕ) {xs : List Arrival} (h : idle xs = false) :
    await bound xs = (true, xs) := by
  unfold await
  split
  · cases h
  · cases h
  · rfl

/-- A wait ends with what has come, or with nothing where its bound was not enough. -/
theorem idle_await (bound : Option ℕ) (xs : List Arrival) :
    idle (await bound xs).2 = !(await bound xs).1 := by
  induction xs generalizing bound with
  | nil => cases bound <;> rfl
  | cons x xs ih =>
    cases x with
    | chunk b bs => cases bound <;> rfl
    | pause ns =>
      cases bound with
      | none => exact ih none
      | some most =>
        unfold await
        split_ifs
        · rfl
        · exact ih _
    | eof => cases bound <;> rfl
    | failure e => cases bound <;> rfl

theorem resume_arrived_behind (xs : List Arrival) : resume (arrived xs) (behind xs) = xs := by
  cases xs with
  | nil => rfl
  | cons x xs => cases x <;> rfl

/-- A read gives what has arrived when its wait is over. -/
theorem given_inputAnswer (bound : Option ℕ) (xs : List Arrival) :
    (inputAnswer bound xs).toOption.getD [] = arrived (await bound xs).2 := by
  have hidle := idle_await bound xs
  unfold inputAnswer
  generalize await bound xs = r at hidle ⊢
  obtain ⟨kept, ys⟩ := r
  cases kept with
  | false =>
    cases ys with
    | nil => rfl
    | cons y ys =>
      cases y with
      | pause ns => rfl
      | chunk b bs => cases hidle
      | eof => rfl
      | failure e => rfl
  | true =>
    cases ys with
    | nil => rfl
    | cons y ys => cases y <;> rfl

/-- A read takes of what has arrived as much as it has room for. -/
theorem afterRead_of_arrived {bound : Option ℕ} {xs : List Arrival}
    (h : arrived (await bound xs).2 ≠ []) (len : ℕ) :
    inputAnswer bound xs = .ok (arrived (await bound xs).2) ∧
      afterRead bound len xs =
        resume ((arrived (await bound xs).2).drop len) (behind (await bound xs).2) := by
  have hidle := idle_await bound xs
  unfold inputAnswer afterRead
  generalize await bound xs = r at h hidle ⊢
  obtain ⟨kept, ys⟩ := r
  cases ys with
  | nil => exact absurd rfl h
  | cons y ys =>
    cases y with
    | chunk b bs =>
      cases kept with
      | false => cases hidle
      | true => exact ⟨rfl, rfl⟩
    | pause ns => exact absurd rfl h
    | eof => exact absurd rfl h
    | failure e => exact absurd rfl h

/-- What the environment answers a read with a bound or without. -/
def envAnswer (env : IoEnv) : Option ℕ → Except KalError (List UInt8)
  | none => env.streamRead
  | some ns =>
    match env.timeoutRead with
    | none => .error .notSupported
    | some read => read ns

theorem okmTimedRead_eq (env : IoEnv) {len : ℕ} (hlen : len ≠ 0) (ns : ℕ) :
    okmTimedRead env len ns = transferOf len (envAnswer env (some ns)) := by
  unfold okmTimedRead envAnswer
  cases env.timeoutRead with
  | none => rfl
  | some read => simp only [hlen, if_false]

theorem envAnswer_inputEnv (base : IoEnv) (bound : Option ℕ) (xs : List Arrival) :
    envAnswer (inputEnv base xs) bound =
      if bound = none ∨ okmCanBound base then inputAnswer bound xs else .error .notSupported := by
  cases bound with
  | none => rfl
  | some ns =>
    unfold envAnswer inputEnv okmCanBound
    cases base.timeoutRead <;> rfl

theorem okmCanBound_inputEnv (base : IoEnv) (xs : List Arrival) :
    okmCanBound (inputEnv base xs) = okmCanBound base := by
  unfold okmCanBound inputEnv
  cases base.timeoutRead <;> rfl

namespace GatherCall

/-- What is done to the bytes that are read. -/
def altering (c : GatherCall) (p : Desc) : UInt8 → UInt8 :=
  match c with
  | .readv alter interactive =>
    if alter ≠ {} ∧ p.kind = .stream ∧ interactive then alter.byte else id
  | .recvmsg _ => id

variable {c : GatherCall} {w : PortState} {fd : Int} {d : Fin okmMaxDesc}

/-- `read` alters what the stream gave. -/
theorem doRead_altering (alter : TermAlter) (interactive : Bool)
    (env : IoEnv) (len : ℕ) (hport : (w.doReadStream env fd len).port.okmDescOf fd = some d)
    (hkind : ((w.doReadStream env fd len).port.desc d).kind = (w.desc d).kind) :
    (w.doRead env alter interactive fd len).port = (w.doReadStream env fd len).port ∧
      (w.doRead env alter interactive fd len).result =
        (w.doReadStream env fd len).result.map
          (List.map ((GatherCall.readv alter interactive).altering (w.desc d))) := by
  unfold doRead altering
  dsimp only
  rw [hport]
  generalize w.doReadStream env fd len = r at hkind ⊢
  obtain ⟨port, result, took⟩ := r
  cases result with
  | error e => exact ⟨rfl, rfl⟩
  | ok bytes =>
    dsimp only at hkind ⊢
    rw [hkind]
    split_ifs
    · exact ⟨rfl, rfl⟩
    · exact ⟨rfl, by simp [Except.map]⟩

/-- What a read finds of a description that has a stream. -/
theorem streamOf_of_hasStream {p : Desc} (h : p.hasStream = true) :
    p.kind ≠ .null ∧ ∃ stream, streamOf p = .ok stream := by
  refine ⟨?_, ?_⟩
  · intro hcon
    rw [Desc.hasStream, streamOf, hcon] at h
    cases h
  · rw [Desc.hasStream] at h
    cases hs : streamOf p with
    | ok stream => exact ⟨stream, rfl⟩
    | error e =>
      rw [hs] at h
      cases h

theorem doReadStream_plain (hd : w.okmDescOf fd = some d)
    (hstream : (w.desc d).hasStream = true) (ha : (w.desc d).ahead = false)
    (he : (w.desc d).aheadEof = false) (env : IoEnv) {len : ℕ} (hlen : len ≠ 0) :
    w.doReadStream env fd len = w.readPlain (w.desc d) env len := by
  obtain ⟨hnull, stream, hs⟩ := streamOf_of_hasStream hstream
  unfold doReadStream readPlain plainAnswer
  simp only [hd, hnull, hs, hlen, if_false, okmTakeAhead, ha, he, Bool.false_and,
    Bool.false_eq_true]
  split_ifs
  · rw [okmTimedRead_now env hlen]
  · rfl

theorem doReadStream_held (hd : w.okmDescOf fd = some d)
    (hstream : (w.desc d).hasStream = true) (ha : (w.desc d).ahead = true) (env : IoEnv) {len : ℕ}
    (hlen : len ≠ 0) :
    w.doReadStream env fd len =
      (w.setDesc d { w.desc d with ahead := false }).readOn env (w.desc d).aheadByte len := by
  obtain ⟨hnull, stream, hs⟩ := streamOf_of_hasStream hstream
  unfold doReadStream
  simp only [hd, hnull, hs, hlen, if_false, okmTakeAhead, ha, Bool.true_and, bne_iff_ne, ne_eq,
    not_false_eq_true, if_true]

/-- What `recv` gives of a transfer. -/
theorem gave_given (w : PortState) (t : Transfer) :
    ((w.gave t).port, ((w.gave t).result.mapError Fault.errno).map (·.data)) = (w, t.result) := by
  obtain ⟨result, took⟩ := t
  cases result <;> rfl

/-- A read where nothing is held. -/
theorem read_plain (hd : w.okmDescOf fd = some d) (hstream : c.OnStream w d)
    (hrefused : c.refused = false) (ha : (w.desc d).ahead = false)
    (he : (w.desc d).aheadEof = false) (env : IoEnv) {len : ℕ} (hlen : len ≠ 0) :
    c.read w env fd len =
      (w, (transferOf len (envAnswer env (c.bound w d))).result.map
        (List.map (c.altering (w.desc d)))) := by
  cases c with
  | readv alter interactive =>
    have hread := doReadStream_plain hd hstream ha he env hlen
    have hanswer : plainAnswer (w.desc d) env =
        envAnswer env ((GatherCall.readv alter interactive).bound w d) := by
      unfold plainAnswer bound
      split_ifs <;> rfl
    obtain ⟨hport, hresult⟩ := doRead_altering (d := d) alter interactive env len
      (by rw [hread]; exact hd) (by rw [hread]; rfl)
    unfold read
    dsimp only
    rw [hport, hresult, hread, readPlain, hanswer]
  | recvmsg flags =>
    obtain ⟨slot, hslot, htype, hstate⟩ := hstream
    have hflags : ¬otherFlags flags (msgNosignal ||| msgDontwait) ≠ 0 := by
      simpa [refused] using hrefused
    unfold read okmSockRecv onSocket recvSlot recvStream bound altering
    simp only [hd, hslot, htype, hstate, hflags, if_false, okmTakeAhead, ha, he, Bool.false_and,
      Bool.false_eq_true, ne_eq, not_true_eq_false]
    -- `recv` alters nothing, and a bound of zero is a read without one
    rw [List.map_id_fun, Except.map_id]
    by_cases hns : boundOf (w.desc d) (w.sock slot) flags true = 0
    · simp only [hns, if_true, not_true_eq_false, if_false]
      exact gave_given w _
    · simp only [hns, if_false, not_false_eq_true, if_true]
      rw [okmTimedRead_eq env hlen]
      exact gave_given w _

/-- What has arrived is what is found when a wait is bounded by the smallest bound. -/
theorem await_now (xs : List Arrival) :
    arrived (await (some okmNowNs) xs).2 = arrived xs ∧
      (arrived xs ≠ [] → behind (await (some okmNowNs) xs).2 = behind xs) := by
  cases xs with
  | nil => exact ⟨rfl, fun _ => rfl⟩
  | cons x xs =>
    cases x with
    | pause ns =>
      rw [await, if_pos (show okmNowNs ≤ ns + 1 from Nat.le_add_left 1 ns)]
      exact ⟨rfl, fun h => absurd rfl h⟩
    | chunk b bs => exact ⟨rfl, fun _ => rfl⟩
    | eof => exact ⟨rfl, fun _ => rfl⟩
    | failure e => exact ⟨rfl, fun _ => rfl⟩

theorem givenBytes_ok (bytes : List UInt8) : givenBytes (.ok bytes) = bytes := rfl

theorem givenBytes_transferOf (len : ℕ) (r : Except KalError (List UInt8)) :
    givenBytes (transferOf len r).result = (r.toOption.getD []).take len := by
  cases r with
  | error e => exact List.take_nil.symm
  | ok bytes => rfl

/-- Behind a byte that is held, a read gives what else has arrived. -/
theorem readOn_inputEnv (w : PortState) (base : IoEnv) (xs : List Arrival) (b : UInt8) (len : ℕ) :
    (w.readOn (inputEnv base xs) b len).port = w ∧
      (w.readOn (inputEnv base xs) b len).result =
        .ok (b :: if okmCanBound base then (arrived xs).take (len - 1) else []) := by
  unfold readOn
  rw [okmCanBound_inputEnv]
  by_cases hbound : okmCanBound base = true
  · by_cases hmore : 1 < len
    · have hgiven : givenBytes (okmTimedRead (inputEnv base xs) (len - 1) okmNowNs).result =
          (arrived xs).take (len - 1) := by
        rw [okmTimedRead_eq _ (by omega), givenBytes_transferOf, envAnswer_inputEnv,
          if_pos (Or.inr hbound), given_inputAnswer, (await_now xs).1]
      rw [if_pos ⟨hmore, hbound⟩, if_pos hbound, ← hgiven]
      dsimp only
      split
      · next heq => simp only [heq, givenBytes, Except.toOption, Option.getD_some, and_self]
      · next hnone =>
        refine ⟨rfl, ?_⟩
        cases hr : (okmTimedRead (inputEnv base xs) (len - 1) okmNowNs).result with
        -- a failure and an end leave the held byte alone
        | error e => rfl
        | ok bytes =>
          cases bytes with
          | nil => rfl
          | cons c rest => exact absurd hr (hnone c rest)
    · have hone : len - 1 = 0 := by omega
      rw [if_neg (fun h => hmore h.1), if_pos hbound, hone, List.take_zero]
      exact ⟨rfl, rfl⟩
  · rw [if_neg (fun h => hbound h.2), if_neg hbound]
    exact ⟨rfl, rfl⟩

/-- The description holds nothing. -/
def emptied (w : PortState) (d : Fin okmMaxDesc) : PortState :=
  w.setDesc d { w.desc d with ahead := false, aheadEof := false }

theorem emptied_of_nothing (ha : (w.desc d).ahead = false) (he : (w.desc d).aheadEof = false) :
    emptied w d = w := by
  have hsame : { w.desc d with ahead := false, aheadEof := false } = w.desc d := by
    generalize w.desc d = p at ha he ⊢
    cases p
    subst ha he
    rfl
  rw [emptied, hsame, setDesc_self]

theorem sockOf_emptied : (emptied w d).sockOf d = w.sockOf d := by
  unfold sockOf emptied
  rw [setDesc_at]

theorem onStream_emptied (h : c.OnStream w d) : c.OnStream (emptied w d) d := by
  cases c with
  | readv alter interactive =>
    unfold OnStream emptied at *
    rw [setDesc_at]
    exact h
  | recvmsg flags =>
    unfold OnStream at *
    rw [sockOf_emptied]
    exact h

theorem bound_emptied : c.bound (emptied w d) d = c.bound w d := by
  cases c with
  | readv alter interactive =>
    unfold bound emptied
    rw [setDesc_at]
  | recvmsg flags =>
    unfold bound
    rw [sockOf_emptied]
    unfold emptied
    rw [setDesc_at]
    rfl

theorem altering_emptied : c.altering ((emptied w d).desc d) = c.altering (w.desc d) := by
  unfold emptied
  rw [setDesc_at]
  rfl

/-- A read where a byte is held. -/
theorem read_held (hd : w.okmDescOf fd = some d) (hstream : c.OnStream w d)
    (hrefused : c.refused = false) (ha : (w.desc d).ahead = true)
    (hone : (w.desc d).HoldsOne) (base : IoEnv) (xs : List Arrival) {len : ℕ} (hlen : len ≠ 0) :
    c.read w (inputEnv base xs) fd len =
      (emptied w d, .ok (((w.desc d).aheadByte ::
        if c.asksBehind ∧ okmCanBound base then (arrived xs).take (len - 1) else []).map
          (c.altering (w.desc d)))) := by
  have he : (w.desc d).aheadEof = false := by simpa [Desc.HoldsOne, ha] using hone
  have hempty : w.setDesc d { w.desc d with ahead := false } = emptied w d := by
    rw [emptied, ← he]
  cases c with
  | readv alter interactive =>
    have hread := doReadStream_held hd hstream ha (inputEnv base xs) hlen
    rw [hempty] at hread
    have hto := readOn_inputEnv (emptied w d) base xs (w.desc d).aheadByte len
    obtain ⟨hport, hresult⟩ := doRead_altering (d := d) alter interactive (inputEnv base xs) len
      (by rw [hread, hto.1]; exact hd) (by rw [hread, hto.1, emptied, setDesc_at])
    unfold read
    dsimp only
    rw [hport, hresult, hread, hto.1, hto.2]
    -- `read` asks for more behind the byte
    simp only [asksBehind, true_and]
    rfl
  | recvmsg flags =>
    obtain ⟨slot, hslot, htype, hstate⟩ := hstream
    have hflags : ¬otherFlags flags (msgNosignal ||| msgDontwait) ≠ 0 := by
      simpa [refused] using hrefused
    unfold read okmSockRecv onSocket recvSlot recvStream altering
    simp only [hd, hslot, htype, hstate, hflags, if_false, okmTakeAhead, ha, hlen, ne_eq,
      not_true_eq_false, bne_iff_ne, not_false_eq_true, Bool.true_and, if_true, asksBehind,
      Bool.false_eq_true, false_and, List.map_id]
    -- `recv` gives the byte alone
    rw [← hempty]
    exact gave_given _ _

theorem read_refused (hd : w.okmDescOf fd = some d) (hstream : c.OnStream w d)
    (hrefused : c.refused = true) (env : IoEnv) (len : ℕ) :
    c.read w env fd len = (w, .error .enosys) := by
  cases c with
  | readv alter interactive => cases hrefused
  | recvmsg flags =>
    obtain ⟨slot, hslot, -, -⟩ := hstream
    have hflags : otherFlags flags (msgNosignal ||| msgDontwait) ≠ 0 := by
      simpa [refused] using hrefused
    unfold read okmSockRecv onSocket recvSlot
    simp only [hd, hslot, hflags, ne_eq, not_false_eq_true, if_true]
    rfl

/-- A read where an end is held. -/
theorem read_ended (hd : w.okmDescOf fd = some d) (hstream : c.OnStream w d)
    (hrefused : c.refused = false) (ha : (w.desc d).ahead = false)
    (he : (w.desc d).aheadEof = true) (env : IoEnv) {len : ℕ} (hlen : len ≠ 0) :
    c.read w env fd len = (w.setDesc d { w.desc d with aheadEof := false }, .ok []) := by
  cases c with
  | readv alter interactive =>
    obtain ⟨hnull, stream, hs⟩ := streamOf_of_hasStream hstream
    have hread : w.doReadStream env fd len =
        ⟨w.setDesc d { w.desc d with aheadEof := false }, .ok [], []⟩ := by
      unfold doReadStream
      simp only [hd, hnull, hs, hlen, if_false, okmTakeAhead, ha, he, Bool.false_and,
        Bool.false_eq_true, if_true]
    obtain ⟨hport, hresult⟩ := doRead_altering (d := d) alter interactive env len
      (by rw [hread]; exact hd) (by rw [hread, setDesc_at])
    unfold read
    dsimp only
    rw [hport, hresult, hread]
    rfl
  | recvmsg flags =>
    obtain ⟨slot, hslot, htype, hstate⟩ := hstream
    have hflags : ¬otherFlags flags (msgNosignal ||| msgDontwait) ≠ 0 := by
      simpa [refused] using hrefused
    unfold read okmSockRecv onSocket recvSlot recvStream
    simp only [hd, hslot, htype, hstate, hflags, if_false, okmTakeAhead, ha, he, ne_eq,
      not_true_eq_false, Bool.false_and, Bool.false_eq_true, if_true]
    rfl

/-- What has arrived for a call is given as far as there is room for it, and the rest is to come. -/
theorem read_ready (hd : w.okmDescOf fd = some d) (hstream : c.OnStream w d)
    (hone : (w.desc d).HoldsOne) {base : IoEnv} {xs : List Arrival}
    (hsome : (c.ready w d base xs).1 ≠ []) {len : ℕ} (hlen : len ≠ 0) :
    c.read w (inputEnv base xs) fd len =
        (emptied w d, .ok (((c.ready w d base xs).1.take len).map (c.altering (w.desc d)))) ∧
      (len ≤ (c.ready w d base xs).1.length → c.comesAfter w d (inputEnv base xs) len xs =
        resume ((c.ready w d base xs).1.drop len) (c.ready w d base xs).2) := by
  obtain ⟨k, rfl⟩ : ∃ k, len = k + 1 := ⟨len - 1, by omega⟩
  unfold ready at hsome ⊢
  unfold comesAfter asks
  by_cases hrefused : c.refused = true
  · simp [hrefused] at hsome
  rw [Bool.not_eq_true] at hrefused
  simp only [hrefused, Bool.false_eq_true, if_false] at hsome ⊢
  by_cases ha : (w.desc d).ahead = true
  · rw [read_held hd hstream hrefused ha hone base xs hlen]
    simp only [ha, if_true, Nat.add_sub_cancel] at hsome ⊢
    by_cases hmore : c.asksBehind = true ∧ okmCanBound base = true
    · simp only [hmore, and_self, if_true, List.take_succ_cons, List.length_cons,
        List.drop_succ_cons, true_and]
      intro hfull
      cases k with
      | zero =>
        -- the held byte fills the buffer, and nothing is asked for
        exact (resume_arrived_behind xs).symm
      | succ k =>
        have hsome' : arrived (await (some okmNowNs) xs).2 ≠ [] := by
          rw [(await_now xs).1, ← List.length_pos_iff]
          omega
        have hasked : askedWith (inputEnv base xs) (some okmNowNs) (k + 1) =
            some ⟨some okmNowNs, k + 1⟩ :=
          if_pos (Or.inr ((okmCanBound_inputEnv base xs).trans hmore.2))
        have hafter := (afterRead_of_arrived hsome' (k + 1)).2
        rw [(await_now xs).1] at hsome' hafter
        rw [if_pos (by omega), hasked, Option.elim_some, hafter, (await_now xs).2 hsome']
    · simp only [if_neg hmore, List.take_succ_cons, List.take_nil, List.length_singleton,
        List.drop_succ_cons, List.drop_nil, true_and]
      intro hfull
      rw [if_neg (by omega)]
      rfl
  · rw [Bool.not_eq_true] at ha
    simp only [ha, Bool.false_eq_true, if_false] at hsome ⊢
    by_cases he : (w.desc d).aheadEof = true
    · simp [he] at hsome
    rw [Bool.not_eq_true] at he
    simp only [he, Bool.false_eq_true, if_false] at hsome ⊢
    by_cases hnone : (c.bound w d).isSome = true ∧ ¬okmCanBound base = true
    · simp [hnone] at hsome
    have hreads : c.bound w d = none ∨ okmCanBound base = true := by
      cases hb : c.bound w d with
      | none => exact Or.inl rfl
      | some ns => simpa [hb] using hnone
    have hasked : askedWith (inputEnv base xs) (c.bound w d) (k + 1) = some ⟨c.bound w d, k + 1⟩ :=
      if_pos (by rwa [okmCanBound_inputEnv])
    rw [if_neg hnone] at hsome ⊢
    obtain ⟨hanswer, hafter⟩ := afterRead_of_arrived hsome (k + 1)
    rw [read_plain hd hstream hrefused ha he _ hlen, envAnswer_inputEnv, if_pos hreads, hanswer,
      emptied_of_nothing ha he, hasked, Option.elim_some, hafter]
    exact ⟨rfl, fun _ => rfl⟩

/-- Where nothing has arrived for a call, what a read of it returns does not depend on its length,
and is no byte. -/
theorem read_unready (hd : w.okmDescOf fd = some d) (hstream : c.OnStream w d)
    {base : IoEnv} {xs : List Arrival} (hnone : (c.ready w d base xs).1 = []) :
    ∃ r, givenBytes r = [] ∧ ∀ len, len ≠ 0 → (c.read w (inputEnv base xs) fd len).2 = r := by
  unfold ready at hnone
  by_cases hrefused : c.refused = true
  · refine ⟨.error .enosys, rfl, fun len _ => ?_⟩
    rw [read_refused hd hstream hrefused]
  rw [Bool.not_eq_true] at hrefused
  simp only [hrefused, Bool.false_eq_true, if_false] at hnone
  by_cases ha : (w.desc d).ahead = true
  · rw [if_pos ha] at hnone
    split_ifs at hnone
  rw [if_neg ha] at hnone
  rw [Bool.not_eq_true] at ha
  by_cases he : (w.desc d).aheadEof = true
  · refine ⟨.ok [], rfl, fun len hlen => ?_⟩
    rw [read_ended hd hstream hrefused ha he _ hlen]
  rw [if_neg he] at hnone
  rw [Bool.not_eq_true] at he
  -- the answer is no byte: a failure, or an end
  have hanswer : (envAnswer (inputEnv base xs) (c.bound w d)).toOption.getD [] = [] := by
    rw [envAnswer_inputEnv]
    by_cases hreads : c.bound w d = none ∨ okmCanBound base = true
    · have hnot : ¬((c.bound w d).isSome = true ∧ ¬okmCanBound base = true) := by
        rintro ⟨hbound, hcan⟩
        rw [hreads.resolve_right hcan] at hbound
        cases hbound
      rw [if_neg hnot] at hnone
      rw [if_pos hreads, given_inputAnswer]
      exact hnone
    · rw [if_neg hreads]
      rfl
  generalize hr : envAnswer (inputEnv base xs) (c.bound w d) = r at hanswer
  cases r with
  | error e =>
    refine ⟨.error (okmErrno e), rfl, fun len hlen => ?_⟩
    rw [read_plain hd hstream hrefused ha he _ hlen, hr]
    rfl
  | ok bytes =>
    refine ⟨.ok [], rfl, fun len hlen => ?_⟩
    have hempty : bytes = [] := hanswer
    rw [read_plain hd hstream hrefused ha he _ hlen, hr, hempty, transferOf, List.take_nil]
    rfl

/-! ## The loop -/

variable {base : IoEnv} {len placed : ℕ} {v : List ℕ} {xs : List Arrival}

theorem gather_zero :
    c.gather base fd d (0 :: v) placed w xs = c.gather base fd d v placed w xs := by
  rw [gather, if_pos rfl]

/-- A buffer that is not filled is the last. -/
theorem gather_stop (hlen : len ≠ 0)
    (hshort : (givenBytes (c.read w (inputEnv base xs) fd len).2).length < len) :
    c.gather base fd d (len :: v) placed w xs =
      ⟨(c.read w (inputEnv base xs) fd len).1, c.comesAfter w d (inputEnv base xs) len xs,
        (c.read w (inputEnv base xs) fd len).2,
        c.performs w d (inputEnv base xs) len placed xs⟩ := by
  unfold gather
  rw [if_neg hlen]
  generalize c.read w (inputEnv base xs) fd len = r at hshort ⊢
  obtain ⟨w', _ | bytes⟩ := r
  · rfl
  · exact if_pos hshort

/-- One that is filled is followed by the next. -/
theorem gather_full (hlen : len ≠ 0) {w' : PortState} {bytes : List UInt8}
    (hread : c.read w (inputEnv base xs) fd len = (w', .ok bytes)) (hfull : len ≤ bytes.length) :
    (c.gather base fd d (len :: v) placed w xs).result =
        .ok (bytes ++ givenBytes (c.gather base fd d v (placed + bytes.length) w'
          (c.comesAfter w d (inputEnv base xs) len xs)).result) ∧
      (c.gather base fd d (len :: v) placed w xs).performed =
        c.performs w d (inputEnv base xs) len placed xs ++
          (c.gather base fd d v (placed + bytes.length) w'
            (c.comesAfter w d (inputEnv base xs) len xs)).performed := by
  rw [gather, if_neg hlen, hread]
  dsimp only
  rw [if_neg (by omega)]
  exact ⟨rfl, rfl⟩

/-- What the first buffer is given is given. -/
theorem given_gather (hlen : len ≠ 0) {w' : PortState} {bytes : List UInt8}
    (hread : c.read w (inputEnv base xs) fd len = (w', .ok bytes)) :
    ∃ more, givenBytes (c.gather base fd d (len :: v) placed w xs).result = bytes ++ more := by
  by_cases hfull : len ≤ bytes.length
  · rw [(gather_full hlen hread hfull).1]
    exact ⟨_, rfl⟩
  · have hshort : (givenBytes (c.read w (inputEnv base xs) fd len).2).length < len := by
      rw [hread]
      exact Nat.lt_of_not_le hfull
    rw [gather_stop hlen hshort, hread]
    exact ⟨[], (List.append_nil _).symm⟩

theorem placed_le_of_performs {env : IoEnv} {p : PerformedRead}
    (hp : p ∈ c.performs w d env len placed xs) : placed ≤ p.placed := by
  obtain ⟨a, -, rfl⟩ := List.mem_map.mp hp
  exact Nat.le_add_right _ _

/-- What a loop performs, it performs after the buffers before. -/
theorem placed_le (v : List ℕ) (placed : ℕ) (w : PortState) (xs : List Arrival) :
    ∀ p ∈ (c.gather base fd d v placed w xs).performed, placed ≤ p.placed := by
  induction v generalizing placed w xs with
  | nil => exact fun p hp => nomatch hp
  | cons len v ih =>
    intro p hp
    by_cases hlen : len = 0
    · rw [hlen, gather_zero] at hp
      exact ih placed w xs p hp
    · rw [gather, if_neg hlen] at hp
      dsimp only at hp
      split at hp
      · exact placed_le_of_performs hp
      · split at hp
        · exact placed_le_of_performs hp
        · rcases List.mem_append.mp hp with hp | hp
          · exact placed_le_of_performs hp
          · exact (Nat.le_add_right _ _).trans (ih _ _ _ p hp)

/-- The first read of a call waits with nothing placed, or with a bound. -/
theorem performs_first {env : IoEnv} {p : PerformedRead} (hp : p ∈ c.performs w d env len 0 xs)
    (hplaced : 0 < p.placed) : p.waits = false := by
  obtain ⟨a, ha, rfl⟩ := List.mem_map.mp hp
  rw [Option.mem_toList] at ha
  unfold asks askedWith at ha
  split_ifs at ha
  · cases ha
    rfl
  · cases ha
    simp at hplaced

/-- Where nothing is held, a read is performed with nothing more placed. -/
theorem performs_plain (hrefused : c.refused = false) (ha : (w.desc d).ahead = false)
    (he : (w.desc d).aheadEof = false) (hreads : c.bound w d = none ∨ okmCanBound base) :
    c.performs w d (inputEnv base xs) len placed xs = [⟨placed, c.bound w d, xs⟩] := by
  have hasked : c.asks w d (inputEnv base xs) len = some ⟨c.bound w d, len⟩ := by
    simp only [asks, hrefused, ha, he, Bool.false_eq_true, if_false]
    exact if_pos (by rwa [okmCanBound_inputEnv])
  rw [performs, hasked, Option.toList_some, List.map_singleton, Nat.sub_self, Nat.add_zero]

theorem ready_plain (hrefused : c.refused = false) (ha : (w.desc d).ahead = false)
    (he : (w.desc d).aheadEof = false) (hreads : c.bound w d = none ∨ okmCanBound base) :
    c.ready w d base xs =
      (arrived (await (c.bound w d) xs).2, behind (await (c.bound w d) xs).2) := by
  have hnot : ¬((c.bound w d).isSome = true ∧ ¬okmCanBound base = true) := by
    rintro ⟨hbound, hcan⟩
    rw [hreads.resolve_right hcan] at hbound
    cases hbound
  simp only [ready, hrefused, ha, he, Bool.false_eq_true, if_false, if_neg hnot]

theorem quiet_iff (hreads : c.bound w d = none ∨ okmCanBound base) :
    Quiet base (c.bound w d) xs ↔
      (⟨placed, c.bound w d, xs⟩ : PerformedRead).waits = false ∧
        arrived (await (c.bound w d) xs).2 = [] := by
  unfold Quiet PerformedRead.waits
  rw [given_inputAnswer]
  cases hb : c.bound w d with
  | none => simp
  | some ns =>
    rw [hb] at hreads
    have hcan : okmCanBound base = true := hreads.resolve_left (Option.some_ne_none ns)
    simp [hcan]

/-- **What the loop does once it has data**: it neither waits nor gives more than had arrived
together exactly when, where that ends with a buffer, what comes behind is quiet. -/
theorem gather_resume (hd : w.okmDescOf fd = some d) (hstream : c.OnStream w d)
    (hrefused : c.refused = false) (ha : (w.desc d).ahead = false)
    (he : (w.desc d).aheadEof = false) (hreads : c.bound w d = none ∨ okmCanBound base)
    (v : List ℕ) (placed : ℕ) (bytes : List UInt8) (xs : List Arrival) :
    ((∀ p ∈ (c.gather base fd d v placed w (resume bytes xs)).performed, p.waits = false) ∧
        givenBytes (c.gather base fd d v placed w (resume bytes xs)).result =
          (bytes.take v.sum).map (c.altering (w.desc d))) ↔
      (EndsBuffer v bytes.length → Quiet base (c.bound w d) xs) := by
  have hone : (w.desc d).HoldsOne := by simp [Desc.HoldsOne, ha]
  induction v generalizing placed bytes with
  | nil =>
    refine iff_of_true ⟨fun p hp => absurd hp List.not_mem_nil, ?_⟩ fun h =>
      absurd h not_endsBuffer_nil
    rw [List.sum_nil, List.take_zero]
    rfl
  | cons len v ih =>
    by_cases hlen : len = 0
    · subst hlen
      rw [gather_zero, endsBuffer_zero, List.sum_cons, Nat.zero_add]
      exact ih placed bytes
    have hready := @ready_plain c w d base (resume bytes xs) hrefused ha he hreads
    cases bytes with
    | nil =>
      -- what had arrived ends here, and the next buffer is read
      have hquiet : (EndsBuffer (len :: v) ([] : List UInt8).length → Quiet base (c.bound w d) xs) ↔
          Quiet base (c.bound w d) xs :=
        ⟨fun h => h (endsBuffer_nothing hlen), fun h _ => h⟩
      rw [hquiet, @quiet_iff c w d base placed xs hreads, resume] at *
      by_cases hnone : arrived (await (c.bound w d) xs).2 = []
      · obtain ⟨r, hgiven, hread⟩ := read_unready hd hstream (by rw [hready]; exact hnone)
        have hstop := @gather_stop c w fd d base len placed v xs hlen
          (by rw [hread len hlen, hgiven]; exact Nat.pos_of_ne_zero hlen)
        rw [hstop, hread len hlen, performs_plain hrefused ha he hreads, hgiven]
        simp [hnone]
      · obtain ⟨hread, -⟩ := read_ready hd hstream hone (by rw [hready]; exact hnone) hlen
        obtain ⟨more, hmore⟩ := @given_gather c w fd d base len placed v xs hlen _ _ hread
        refine iff_of_false (fun hcon => ?_) fun hcon => hnone hcon.2
        have hsome := hcon.2
        rw [hmore, hready] at hsome
        simp [hnone, hlen] at hsome
    | cons x bytes =>
      have hnow : await (c.bound w d) (resume (x :: bytes) xs) = (true, resume (x :: bytes) xs) :=
        await_of_not_idle _ rfl
      replace hready : c.ready w d base (resume (x :: bytes) xs) = (x :: bytes, xs) := by
        rw [hready, hnow]
        rfl
      obtain ⟨hread, hafter⟩ := read_ready hd hstream hone
        (by rw [hready]; exact List.cons_ne_nil _ _) hlen
      rw [hready] at hread hafter
      dsimp only at hread hafter
      have hsome : (x :: bytes).length ≠ 0 := Nat.succ_ne_zero _
      have hperformed := @performs_plain c w d base len placed (resume (x :: bytes) xs)
        hrefused ha he hreads
      have hwaits : (⟨placed, c.bound w d, resume (x :: bytes) xs⟩ : PerformedRead).waits = false :=
        Bool.and_false _
      by_cases hfull : len ≤ (x :: bytes).length
      · -- the buffer is filled, and the rest follows
        have hlength : ((List.take len (x :: bytes)).map (c.altering (w.desc d))).length = len := by
          rw [List.length_map, List.length_take, Nat.min_eq_left hfull]
        obtain ⟨hresult, hperforms⟩ := @gather_full c w fd d base len placed v _ hlen _ _ hread
          (by rw [hlength])
        have hrest := ih (placed + len) ((x :: bytes).drop len)
        rw [List.length_drop, ← endsBuffer_cons hsome hfull] at hrest
        refine Iff.trans ?_ hrest
        rw [hresult, hperforms, hperformed, hafter hfull, emptied_of_nothing ha he, hlength,
          List.sum_cons, List.take_add, List.map_append, List.forall_mem_append,
          List.forall_mem_singleton, givenBytes_ok, List.append_cancel_left_eq]
        simp only [hwaits, true_and]
      · -- it is not, and nothing is asked for
        rw [Nat.not_le] at hfull
        have hall : (x :: bytes).take len = x :: bytes := List.take_of_length_le hfull.le
        rw [hall] at hread
        have hstop := @gather_stop c w fd d base len placed v (resume (x :: bytes) xs) hlen
          (by rw [hread]; exact (List.length_map _).trans_lt hfull)
        rw [hstop, hread, hperformed]
        refine iff_of_true ⟨?_, ?_⟩ fun h => absurd h (not_endsBuffer_of_lt hsome hfull)
        · simp [hwaits]
        · rw [List.take_of_length_le (by rw [List.sum_cons]; omega)]
          rfl

/-- Where a read cannot be bounded and would have to be, nothing is read. -/
theorem gather_unread (hd : w.okmDescOf fd = some d) (hstream : c.OnStream w d)
    (ha : (w.desc d).ahead = false) (he : (w.desc d).aheadEof = false)
    (hnot : ¬(c.bound w d = none ∨ okmCanBound base)) (v : List ℕ) (placed : ℕ)
    (xs : List Arrival) :
    (c.gather base fd d v placed w xs).performed = [] ∧
      givenBytes (c.gather base fd d v placed w xs).result = [] := by
  have hunread : (c.bound w d).isSome = true ∧ ¬okmCanBound base = true := by
    rw [not_or, ← ne_eq, Option.ne_none_iff_isSome] at hnot
    exact hnot
  induction v with
  | nil => exact ⟨rfl, rfl⟩
  | cons len v ih =>
    by_cases hlen : len = 0
    · rw [hlen, gather_zero]
      exact ih
    have hready : (c.ready w d base xs).1 = [] := by
      simp only [ready, ha, he, Bool.false_eq_true, if_false, if_pos hunread, ite_self]
    have hasked : c.asks w d (inputEnv base xs) len = none := by
      simp only [asks, ha, he, Bool.false_eq_true, if_false, ite_eq_left_iff]
      intro _
      exact if_neg (by rwa [okmCanBound_inputEnv])
    obtain ⟨r, hgiven, hread⟩ := read_unready hd hstream hready
    have hstop := @gather_stop c w fd d base len placed v xs hlen
      (by rw [hread len hlen, hgiven]; exact Nat.pos_of_ne_zero hlen)
    rw [hstop, hread len hlen, performs, hasked]
    exact ⟨rfl, hgiven⟩

/-- One buffer is given what has arrived for the call. -/
theorem gather_single (hd : w.okmDescOf fd = some d) (hstream : c.OnStream w d)
    (hone : (w.desc d).HoldsOne) (hsome : (c.ready w d base xs).1 ≠ []) {n : ℕ} (hn : n ≠ 0) :
    (c.gather base fd d [n] 0 w xs).result =
      .ok (((c.ready w d base xs).1.take n).map (c.altering (w.desc d))) := by
  obtain ⟨hread, -⟩ := read_ready hd hstream hone hsome hn
  by_cases hfull : n ≤ (((c.ready w d base xs).1.take n).map (c.altering (w.desc d))).length
  · rw [(gather_full hn hread hfull).1]
    exact congrArg Except.ok (List.append_nil _)
  · rw [gather_stop hn (by rw [hread]; exact Nat.lt_of_not_le hfull), hread]

theorem ready_of_some (hsome : (c.ready w d base xs).1 ≠ []) :
    c.refused = false ∧
      (¬(c.bound w d = none ∨ okmCanBound base) → (c.ready w d base xs).1.length = 1) := by
  unfold ready at hsome ⊢
  by_cases hrefused : c.refused = true
  · exact absurd (by rw [if_pos hrefused]) hsome
  rw [if_neg hrefused] at hsome ⊢
  refine ⟨by simpa using hrefused, fun hnot => ?_⟩
  rw [not_or, ← ne_eq, Option.ne_none_iff_isSome] at hnot
  split_ifs at hsome ⊢ with ha hbehind he
  · exact absurd hbehind.2 hnot.2
  · rfl
  · exact absurd rfl hsome
  · exact absurd rfl hsome

/-- What the loop does behind a first buffer that was filled. -/
theorem gather_rest (hd : w.okmDescOf fd = some d) (hstream : c.OnStream w d)
    (hsome : (c.ready w d base xs).1 ≠ []) (hlen : len ≠ 0)
    (v : List ℕ) (placed : ℕ) :
    ((∀ p ∈ (c.gather base fd d v placed (emptied w d)
          (resume ((c.ready w d base xs).1.drop len) (c.ready w d base xs).2)).performed,
          p.waits = false) ∧
        givenBytes (c.gather base fd d v placed (emptied w d)
            (resume ((c.ready w d base xs).1.drop len) (c.ready w d base xs).2)).result =
          (((c.ready w d base xs).1.drop len).take v.sum).map (c.altering (w.desc d))) ↔
      (EndsBuffer v ((c.ready w d base xs).1.length - len) →
        Quiet base (c.bound w d) (c.ready w d base xs).2) := by
  obtain ⟨hrefused, hlength⟩ := ready_of_some hsome
  have ha : ((emptied w d).desc d).ahead = false := by rw [emptied, setDesc_at]
  have he : ((emptied w d).desc d).aheadEof = false := by rw [emptied, setDesc_at]
  by_cases hreads : c.bound w d = none ∨ okmCanBound base = true
  · have hrest := @gather_resume c (emptied w d) fd d base hd (onStream_emptied hstream) hrefused
      ha he (by rwa [bound_emptied]) v placed ((c.ready w d base xs).1.drop len)
        (c.ready w d base xs).2
    rw [List.length_drop, bound_emptied, altering_emptied] at hrest
    exact hrest
  · obtain ⟨hperformed, hgiven⟩ := @gather_unread c (emptied w d) fd d base hd
      (onStream_emptied hstream) ha he (by rwa [bound_emptied]) v placed
      (resume ((c.ready w d base xs).1.drop len) (c.ready w d base xs).2)
    have hdrop : (c.ready w d base xs).1.drop len = [] := by
      rw [List.drop_eq_nil_iff, hlength hreads]
      omega
    -- only the held byte had arrived, and it is in the first buffer
    rw [hperformed, hgiven, hdrop, List.take_nil]
    refine iff_of_true ⟨fun p hp => (nomatch hp), rfl⟩ fun _ => ⟨?_, ?_⟩
    · exact fun h => absurd (Or.inl h) hreads
    · exact fun h => absurd h hreads

/-- A call that reads one buffer reads it as `read` or `recv` does. -/
theorem gather_one {n : ℕ} (hn : n ≠ 0) :
    (c.gather base fd d [n] 0 w xs).result = (c.read w (inputEnv base xs) fd n).2 := by
  rw [gather, if_neg hn]
  dsimp only
  generalize (c.read w (inputEnv base xs) fd n).2 = r
  cases r with
  | error e => rfl
  | ok bytes =>
    dsimp only
    split_ifs
    · rfl
    · exact congrArg Except.ok (List.append_nil _)

/-- **The loop is `readv`**, of buffers that are answered out of what is to come. -/
theorem gather_readv (alter : TermAlter) (interactive : Bool) (base : IoEnv) (fd : Int)
    (d : Fin okmMaxDesc) (lens : List ℕ) (placed : ℕ) (w : PortState) (xs : List Arrival) :
    ∃ v : List (ℕ × IoEnv), v.map Prod.fst = lens ∧
      (w.doReadv alter interactive fd v).port =
        ((readv alter interactive).gather base fd d lens placed w xs).port ∧
      (w.doReadv alter interactive fd v).result =
        ((readv alter interactive).gather base fd d lens placed w xs).result := by
  induction lens generalizing placed w xs with
  | nil => exact ⟨[], rfl, rfl, rfl⟩
  | cons len lens ih =>
    by_cases hlen : len = 0
    · -- an empty buffer is passed over by both
      obtain ⟨v, hv, hport, hresult⟩ := ih placed w xs
      refine ⟨(len, base) :: v, by rw [List.map_cons, hv], ?_⟩
      rw [hlen, gather_zero, doReadv, if_pos rfl]
      exact ⟨hport, hresult⟩
    · have hfst : (lens.map fun n => (n, base)).map Prod.fst = lens := by
        rw [List.map_map]
        exact List.map_id _
      rw [gather, if_neg hlen]
      dsimp only
      rcases hr : (w.doRead (inputEnv base xs) alter interactive fd len).result with e | bytes
      · -- a failure ends both
        refine ⟨(len, inputEnv base xs) :: lens.map fun n => (n, base),
          by rw [List.map_cons, hfst], ?_⟩
        simp only [doReadv, hlen, if_false, hr, read, and_self]
      · -- so does a buffer that is not filled
        by_cases hshort : bytes.length < len
        · -- a failure ends both
          refine ⟨(len, inputEnv base xs) :: lens.map fun n => (n, base),
            by rw [List.map_cons, hfst], ?_⟩
          simp only [doReadv, hlen, if_false, hr, read, hshort, if_true, and_self]
        · obtain ⟨v, hv, hport, hresult⟩ := ih (placed + bytes.length)
            (w.doRead (inputEnv base xs) alter interactive fd len).port
            ((readv alter interactive).comesAfter w d (inputEnv base xs) len xs)
          refine ⟨(len, inputEnv base xs) :: v, by rw [List.map_cons, hv], ?_⟩
          simp only [doReadv, hlen, if_false, hr, read, hshort, hport, hresult, givenBytes,
            and_self]

theorem readOn_congr (w : PortState) (b : UInt8) {env env' : IoEnv} {len : ℕ}
    (hcan : okmCanBound env' = okmCanBound env)
    (h : 1 < len → okmCanBound env = true →
      envAnswer env (some okmNowNs) = envAnswer env' (some okmNowNs)) :
    w.readOn env b len = w.readOn env' b len := by
  unfold readOn
  rw [hcan]
  by_cases hmore : 1 < len ∧ okmCanBound env = true
  · rw [if_pos hmore, if_pos hmore, okmTimedRead_eq env (by omega), okmTimedRead_eq env' (by omega),
      h hmore.1 hmore.2]
  · rw [if_neg hmore, if_neg hmore]

theorem envAnswer_congr {env env' : IoEnv} {bound : Option ℕ}
    (hcan : okmCanBound env' = okmCanBound env)
    (h : ∀ a, askedWith env bound len = some a → envAnswer env a.bound = envAnswer env' a.bound) :
    envAnswer env bound = envAnswer env' bound := by
  by_cases hreads : bound = none ∨ okmCanBound env = true
  · exact h ⟨bound, len⟩ (if_pos hreads)
  · obtain ⟨ns, rfl⟩ := Option.ne_none_iff_exists'.mp (not_or.mp hreads).1
    have hnot := (not_or.mp hreads).2
    have hnot' := hnot
    rw [← hcan] at hnot'
    unfold okmCanBound at hnot hnot'
    rw [Bool.not_eq_true, Option.isSome_eq_false_iff, Option.isNone_iff_eq_none] at hnot hnot'
    rw [envAnswer, envAnswer, hnot, hnot']

/-- **A read of the description performs no other read of the environment** than `asks` says: how
the environment would answer another makes no difference. -/
theorem read_congr (hd : w.okmDescOf fd = some d) (hstream : c.OnStream w d)
    {env env' : IoEnv} (hcan : okmCanBound env' = okmCanBound env) (hlen : len ≠ 0)
    (h : ∀ a, c.asks w d env len = some a → envAnswer env a.bound = envAnswer env' a.bound) :
    c.read w env fd len = c.read w env' fd len := by
  by_cases hrefused : c.refused = true
  · rw [read_refused hd hstream hrefused, read_refused hd hstream hrefused]
  rw [Bool.not_eq_true] at hrefused
  unfold asks at h
  simp only [hrefused, Bool.false_eq_true, if_false] at h
  by_cases ha : (w.desc d).ahead = true
  · rw [if_pos ha] at h
    cases c with
    | readv alter interactive =>
      have hread : w.doReadStream env fd len = w.doReadStream env' fd len := by
        rw [doReadStream_held hd hstream ha env hlen, doReadStream_held hd hstream ha env' hlen]
        refine readOn_congr _ _ hcan fun hmore hbound => ?_
        rw [if_pos ⟨rfl, hmore⟩] at h
        exact h ⟨some okmNowNs, len - 1⟩ (if_pos (Or.inr hbound))
      unfold read doRead
      rw [hread]
    | recvmsg flags =>
      -- the byte is given alone, whatever the environment has
      obtain ⟨slot, hslot, htype, hstate⟩ := hstream
      unfold read okmSockRecv onSocket recvSlot recvStream
      simp only [hd, hslot, htype, hstate, okmTakeAhead, ha, hlen, ne_eq, not_true_eq_false,
        if_false, bne_iff_ne, not_false_eq_true, Bool.true_and, if_true]
  · rw [if_neg ha] at h
    rw [Bool.not_eq_true] at ha
    by_cases he : (w.desc d).aheadEof = true
    · rw [read_ended hd hstream hrefused ha he env hlen,
        read_ended hd hstream hrefused ha he env' hlen]
    · rw [if_neg he] at h
      rw [Bool.not_eq_true] at he
      rw [read_plain hd hstream hrefused ha he env hlen,
        read_plain hd hstream hrefused ha he env' hlen, envAnswer_congr hcan h]

end GatherCall

/-- **When a gathered read is prompt**: where what has arrived ends with a buffer that is not the
last, what comes behind is quiet. -/
theorem prompt_iff {c : GatherCall} {w : PortState} {fd : Int} {d : Fin okmMaxDesc}
    (hd : w.okmDescOf fd = some d) (hstream : c.OnStream w d) (hone : (w.desc d).HoldsOne)
    (base : IoEnv) (lens : List ℕ) (xs : List Arrival) :
    Prompt (c.gather base fd d lens 0 w xs) (c.gather base fd d [lens.sum] 0 w xs) ↔
      ((c.ready w d base xs).1 ≠ [] → EndsBuffer lens (c.ready w d base xs).1.length →
        Quiet base (c.bound w d) (c.ready w d base xs).2) := by
  induction lens with
  | nil =>
    refine iff_of_true ⟨fun p hp => (nomatch hp), ?_⟩ fun _ h => absurd h not_endsBuffer_nil
    rw [List.sum_nil, GatherCall.gather_zero]
  | cons len v ih =>
    by_cases hlen : len = 0
    · subst hlen
      rw [GatherCall.gather_zero, endsBuffer_zero, List.sum_cons, Nat.zero_add]
      exact ih
    have htotal : (len :: v).sum ≠ 0 := by
      rw [List.sum_cons]
      omega
    by_cases hready : (c.ready w d base xs).1 = []
    · -- nothing has arrived: one buffer or several, what is returned is the same
      refine iff_of_true ?_ fun h => absurd hready h
      obtain ⟨r, hgiven, hread⟩ := GatherCall.read_unready hd hstream hready
      rw [GatherCall.gather_stop hlen
          (by rw [hread len hlen, hgiven]; exact Nat.pos_of_ne_zero hlen),
        GatherCall.gather_stop htotal
          (by rw [hread _ htotal, hgiven]; exact Nat.pos_of_ne_zero htotal)]
      exact ⟨fun p hp => GatherCall.performs_first hp,
        (hread len hlen).trans (hread _ htotal).symm⟩
    have hsome : (c.ready w d base xs).1.length ≠ 0 := by rwa [ne_eq, List.length_eq_zero_iff]
    obtain ⟨hread, hafter⟩ := GatherCall.read_ready hd hstream hone hready hlen
    have hsingle := GatherCall.gather_single hd hstream hone hready htotal
    by_cases hfull : len ≤ (c.ready w d base xs).1.length
    · -- the first buffer is filled
      have hlength : (((c.ready w d base xs).1.take len).map
          (c.altering (w.desc d))).length = len := by
        rw [List.length_map, List.length_take, Nat.min_eq_left hfull]
      obtain ⟨hresult, hperforms⟩ := @GatherCall.gather_full c w fd d base len 0 v xs hlen _ _ hread
        hlength.ge
      rw [hafter hfull, hlength] at hresult hperforms
      rw [List.sum_cons, List.take_add, List.map_append] at hsingle
      rw [endsBuffer_cons hsome hfull, forall_prop_of_true hready,
        ← GatherCall.gather_rest hd hstream hready hlen v (0 + len)]
      have hlater := @GatherCall.placed_le c fd d base v (0 + len) (GatherCall.emptied w d)
        (resume ((c.ready w d base xs).1.drop len) (c.ready w d base xs).2)
      constructor
      · rintro ⟨hwaits, hsame⟩
        rw [hperforms] at hwaits
        rw [hresult, List.sum_cons, hsingle, Except.ok.injEq, List.append_cancel_left_eq] at hsame
        refine ⟨fun p hp => hwaits p (List.mem_append_right _ hp) ?_, hsame⟩
        have hle := hlater p hp
        omega
      · rintro ⟨hwaits, hgiven⟩
        refine ⟨fun p hp hplaced => ?_, ?_⟩
        · rw [hperforms] at hp
          rcases List.mem_append.mp hp with hp | hp
          · exact GatherCall.performs_first hp hplaced
          · exact hwaits p hp
        · rw [hresult, List.sum_cons, hsingle, hgiven]
    · -- the first buffer has room for all that arrived, and no other is read
      rw [Nat.not_le] at hfull
      have hall : (c.ready w d base xs).1.take len = (c.ready w d base xs).1 :=
        List.take_of_length_le hfull.le
      refine iff_of_true ?_ fun _ h => absurd h (not_endsBuffer_of_lt hsome hfull)
      rw [GatherCall.gather_stop hlen
        (by rw [hread, hall]; exact (List.length_map _).trans_lt hfull), hread]
      refine ⟨fun p hp => GatherCall.performs_first hp, ?_⟩
      rw [hsingle, hall, List.take_of_length_le (by rw [List.sum_cons]; omega)]

/-- A table in which number 3 is a channel. -/
def channelTable : PortState :=
  ((PortState.okmTableInit 1 .supplied).okmFdBind 1 3 .channel 70 0 0 oRdonly).1

theorem channelTable_onStream :
    (GatherCall.readv {} false).OnStream channelTable ⟨3, by decide⟩ := by
  have hstream : (channelTable.desc ⟨3, by decide⟩).hasStream = true := by decide +kernel
  exact hstream

/-- Two bytes arrive after a while, and the end. They fill the first buffer, and the end is what is
found for the second. -/
theorem prompt_ended :
    Prompt
      ((GatherCall.readv {} false).gather IoEnv.idle 3 ⟨3, by decide⟩ [0, 2, 3] 0 channelTable
        [.pause 5, .chunk 1 [2], .eof])
      ((GatherCall.readv {} false).gather IoEnv.idle 3 ⟨3, by decide⟩ [[0, 2, 3].sum] 0 channelTable
        [.pause 5, .chunk 1 [2], .eof]) :=
  (prompt_iff (c := .readv {} false) (w := channelTable) (d := ⟨3, by decide⟩) (by decide +kernel)
    channelTable_onStream (by decide +kernel) IoEnv.idle [0, 2, 3]
    [.pause 5, .chunk 1 [2], .eof]).mpr fun _ _ => by decide +kernel

/-- Two bytes arrive, and nothing more for a second. Where the first of two buffers has room for two
bytes, the second is read, and the call waits. -/
theorem not_prompt_filled :
    ¬Prompt
      ((GatherCall.readv {} false).gather IoEnv.idle 3 ⟨3, by decide⟩ [2, 3] 0 channelTable
        [.chunk 1 [2], .pause 999999999, .chunk 3 []])
      ((GatherCall.readv {} false).gather IoEnv.idle 3 ⟨3, by decide⟩ [5] 0 channelTable
        [.chunk 1 [2], .pause 999999999, .chunk 3 []]) := by
  intro h
  have hsecond : (⟨2, none, [.pause 999999999, .chunk 3 []]⟩ : PerformedRead) ∈
      ((GatherCall.readv {} false).gather IoEnv.idle 3 ⟨3, by decide⟩ [2, 3] 0 channelTable
        [.chunk 1 [2], .pause 999999999, .chunk 3 []]).performed := by decide +kernel
  exact absurd (h.waits _ hsecond (by decide)) (by decide)

end OpenkalMusl
