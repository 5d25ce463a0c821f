import OpenkalMusl.Net.Sockets

/-!
# Readiness

`poll` and `select` (`okm_poll.c`, the readiness calls of `okm_syscall.c` and `okm_net.c`). An
enquiry attempts the transfer under a bound and keeps what it produced: one byte or an end of input
in the description, one connection or one message in the socket's slot. A set is asked one
descriptor after another, and again until one is ready or the bound is spent.

The environment's answers to a call are given round by round, and in a round for each entry of the
set; a call for which the rounds end before it returns is still waiting.

## Main definitions

* `waitIn`, `okmSockWaitIn`: an enquiry of one descriptor
* `okmPoll`, `okmSelect`: the calls, with the enquiries they made

## Main results

* `waited_waitIn`: what an enquiry can do
* `okmPoll_port`, `okmSelect_port`: a call leaves the table that its enquiries leave, one after
  another
-/

namespace OpenkalMusl

open Transition

section Constants

def pollIn : ℕ := 0x001
def pollOut : ℕ := 0x004
def pollErr : ℕ := 0x008
def pollHup : ℕ := 0x010
def pollNval : ℕ := 0x020

/-- The largest message that is held for a datagram socket, which is the largest there is. -/
def okmDgramMax : ℕ := 65536

/-- The interval a set of more than one descriptor is revisited at. -/
def okmRoundNs : ℕ := 1000000

def okmSelectMax : ℕ := 128
def fdSetsize : ℕ := 1024

end Constants

/-- What an enquiry leaves: the table, whether input is there or the bound expired, the handles it
obtained, and what it took from the environment. -/
structure Enquiry where
  port : PortState
  result : Except Errno Bool
  obtained : List Resource := []
  took : List Item := []
  message : Option Message := none

inductive SockShape where
  | idle | stream | own
  deriving DecidableEq

namespace PortState

def okmSockShape (w : PortState) (d : Fin okmMaxDesc) : SockShape :=
  match w.sockOf d with
  | none => .idle
  | some slot =>
    match (w.sock slot).state with
    | .conn => .stream
    | .listen | .dgram => .own
    | _ => .idle

/-- A connection is accepted and kept. -/
def keepConn (w : PortState) (slot : Fin okmMaxSock) (c : Handle) : PortState :=
  w.setSlot slot { w.sock slot with pend := c, pendConn := true }

/-- The enquiry of a listener. -/
def waitConn (w : PortState) (env : IoEnv) (slot : Fin okmMaxSock) (ns : ℕ) : Enquiry :=
  if (w.sock slot).pendConn then ⟨w, .ok true, [], [], none⟩
  else match env.timeoutAccept with
    | none => ⟨w, .error .enosys, [], [], none⟩
    | some accept =>
      match accept ns with
      | .error .again => ⟨w, .ok false, [], [], none⟩
      | .error e => ⟨w, .error (okmErrno e), [], [], none⟩
      | .ok c => ⟨w.keepConn slot c, .ok true, [.conn c], [], none⟩

/-- Memory for a message, which a slot keeps once it has it. -/
def obtainBuf (w : PortState) (slot : Fin okmMaxSock) : PortState :=
  w.setSlot slot { w.sock slot with buf := some ((w.sock slot).buf.getD []) }

/-- A message is received and kept. -/
def keepMessage (w : PortState) (slot : Fin okmMaxSock) (m : Message) : PortState :=
  w.setSlot slot { w.sock slot with
    buf := some (m.data.take okmDgramMax), pendLen := (m.data.take okmDgramMax).length,
    pendFrom := m.sender, pendMsg := true }

/-- The enquiry of a datagram socket. -/
def waitMessage (w : PortState) (env : IoEnv) (slot : Fin okmMaxSock) (ns : ℕ) : Enquiry :=
  if (w.sock slot).pendMsg then ⟨w, .ok true, [], [], none⟩
  else match env.timeoutRecvFrom with
    | none => ⟨w, .error .enosys, [], [], none⟩
    | some recv =>
      if (w.sock slot).buf = none ∧ env.malloc = false then ⟨w, .error .enomem, [], [], none⟩
      else
        let w := w.obtainBuf slot
        match recv ns with
        | .error .again => ⟨w, .ok false, [], [], none⟩
        | .error e => ⟨w, .error (okmErrno e), [], [], none⟩
        | .ok m => ⟨w.keepMessage slot m, .ok true, [], [], some m⟩

def okmSockWaitIn (w : PortState) (env : IoEnv) (d : Fin okmMaxDesc) (ns : ℕ) : Enquiry :=
  match w.sockOf d with
  | none => ⟨w, .error .ebadf, [], [], none⟩
  | some slot =>
    match (w.sock slot).state with
    | .listen => w.waitConn env slot ns
    | .dgram => w.waitMessage env slot ns
    | _ => ⟨w, .ok false, [], [], none⟩

/-- The enquiry of a stream: one byte, or an end of input. -/
def waitByte (w : PortState) (env : IoEnv) (d : Fin okmMaxDesc) (ns : ℕ) : Enquiry :=
  match env.timeoutRead with
  | none => ⟨w, .error .enosys, [], [], none⟩
  | some read =>
    match read ns with
    | .error .again => ⟨w, .ok false, [], [], none⟩
    | .error e => ⟨w, .error (okmErrno e), [], [], none⟩
    | .ok [] => ⟨w.setDesc d { w.desc d with aheadEof := true }, .ok true, [], [.eof], none⟩
    | .ok (b :: _) =>
      ⟨w.setDesc d { w.desc d with ahead := true, aheadByte := b }, .ok true, [], [.byte b], none⟩

/-- Waits up to `ns` for a descriptor to have input, and keeps what arrived. -/
def waitIn (w : PortState) (env : IoEnv) (d : Fin okmMaxDesc) (ns : ℕ) : Enquiry :=
  if (w.desc d).ahead ∨ (w.desc d).aheadEof then ⟨w, .ok true, [], [], none⟩
  else if (w.desc d).kind = .socket ∧ w.okmSockShape d = .own then w.okmSockWaitIn env d ns
  else w.waitByte env d ns

/-- Whether a descriptor can have input at all. -/
def hasInputRoute (w : PortState) (d : Fin okmMaxDesc) : Bool :=
  match (w.desc d).kind with
  | .stream | .channel => (w.desc d).flags &&& oAccmode ≠ oWronly
  | .socket => w.okmSockShape d ≠ .idle
  | _ => false

end PortState

/-- An entry of the set that `poll` is given. -/
structure PollFd where
  fd : Int
  events : ℕ
  revents : ℕ := 0
  deriving DecidableEq

/-- An enquiry that a call made: of which description, under which bound, and what the environment
answered. -/
structure Asked where
  d : Fin okmMaxDesc
  ns : ℕ
  env : IoEnv

/-- A round of `poll`, as far as it has come. -/
structure Round where
  port : PortState
  entries : List PollFd := []
  ready : ℕ := 0
  failure : Option Errno := none
  asked : List Asked := []

/-- What a call leaves: the table, what it returned unless it is still waiting, the set as it was
answered, and the enquiries it made. -/
structure Polled where
  port : PortState
  result : Option (Except Errno ℕ)
  entries : List PollFd := []
  asked : List Asked := []

/-- The entry is answered, and counted or not. -/
def Round.answer (r : Round) (e : PollFd) (revents : ℕ) (counted : Bool) : Round :=
  { r with
    entries := r.entries ++ [{ e with revents := revents }]
    ready := if counted then r.ready + 1 else r.ready }

/-- The entry is answered, and counted where there is something to report. -/
def Round.settle (r : Round) (e : PollFd) (revents : ℕ) : Round :=
  r.answer e revents (revents != 0)

/-- The flag, where it is asked about. -/
def PollFd.wants (e : PollFd) (flag : ℕ) : ℕ := if hasFlag e.events flag then flag else 0

/-- Writability, which is reported without an enquiry. -/
def PollFd.writable (e : PollFd) (p : Desc) : ℕ :=
  if hasFlag e.events pollOut ∧ p.flags &&& oAccmode ≠ oRdonly then pollOut else 0

namespace PortState

/-- What an enquiry that found input reports: an end of input is a hang-up too, but of no standard
stream. -/
def readable (p : Desc) : ℕ :=
  if p.aheadEof ∧ p.kind ≠ .stream then pollIn ||| pollHup else pollIn

/-- An entry of the set is asked. -/
def pollOne (ns : ℕ) (r : Round) (e : PollFd) (env : IoEnv) : Round :=
  if e.fd < 0 then r.answer e 0 false
  else match r.port.okmDescOf e.fd with
    | none => r.answer e pollNval true
    | some d =>
      let p := r.port.desc d
      if p.kind = .file ∨ p.kind = .dir ∨ p.kind = .null then
        r.settle e (e.wants pollIn ||| e.wants pollOut)
      else if hasFlag e.events pollIn ∧ r.port.hasInputRoute d then
        let q := r.port.waitIn env d ns
        let r : Round := { r with port := q.port, asked := r.asked ++ [⟨d, ns, env⟩] }
        match q.result with
        | .error err =>
          { r with failure := r.failure.or (some err) }.settle e (e.writable p)
        | .ok true => r.settle e (readable (q.port.desc d) ||| e.writable p)
        | .ok false => r.settle e (e.writable p)
      else r.settle e (e.writable p)

/-- One round over the set; the environment answers for each entry. -/
def pollRound (ns : ℕ) (env : ℕ → IoEnv) : Round → ℕ → List PollFd → Round
  | r, _, [] => r
  | r, i, e :: es => pollRound ns env (pollOne ns r e (env i)) (i + 1) es

/-- The rounds of a call, with `left` nanoseconds of its bound still to be spent. -/
def pollRounds (fds : List PollFd) (single forever : Bool) (w : PortState) (left : ℕ)
    (asked : List Asked) : List (ℕ → IoEnv) → Polled
  | [] => ⟨w, none, fds, asked⟩
  | env :: rounds =>
    let ns := if single then (if forever then 0 else if left ≠ 0 then left else okmNowNs)
      else okmNowNs
    let r := pollRound ns env { port := w } 0 fds
    if r.ready ≠ 0 then ⟨r.port, some (.ok r.ready), r.entries, asked ++ r.asked⟩
    else match r.failure with
      -- a failure is reported only when nothing was ready
      | some e => ⟨r.port, some (.error e), r.entries, asked ++ r.asked⟩
      | none =>
        if !forever && left == 0 then ⟨r.port, some (.ok 0), r.entries, asked ++ r.asked⟩
        else if single ∧ r.asked ≠ [] then
          -- the whole bound was handed to the one enquiry
          if !forever then ⟨r.port, some (.ok 0), r.entries, asked ++ r.asked⟩
          else pollRounds fds single forever r.port left (asked ++ r.asked) rounds
        else
          pollRounds fds single forever r.port
            (if forever then left else if left ≤ okmRoundNs then 0 else left - okmRoundNs)
            (asked ++ r.asked) rounds

/-- `poll`; no set at all is `none`. -/
def okmPoll (w : PortState) (fds : Option (List PollFd)) (timeoutMs : Int)
    (rounds : List (ℕ → IoEnv)) : Polled :=
  match fds with
  | none => ⟨w, some (.error .efault), [], []⟩
  | some fds =>
    if okmMaxFd < fds.length then ⟨w, some (.error .einval), fds, []⟩
    else
      let forever := decide (timeoutMs < 0)
      pollRounds fds (fds.length == 1 && fds.all fun e => decide (0 ≤ e.fd)) forever w
        (if forever then 0 else timeoutMs.toNat * 1000000) [] rounds

/-- The set that `select` asks `poll` about. -/
def selectSet (nfds : Int) (rd wr : Option (ℕ → Bool)) : Except Errno (List PollFd) :=
  if nfds < 0 ∨ (fdSetsize : Int) < nfds then .error .einval
  else
    let es := (List.range nfds.toNat).filterMap fun fd =>
      let events := (if rd.any (· fd) then pollIn else 0) ||| (if wr.any (· fd) then pollOut else 0)
      if events = 0 then none else some { fd := fd, events := events }
    if okmSelectMax < es.length then .error .einval else .ok es

/-- How many bits `select` sets. -/
def selectCount (rd wr : Option (ℕ → Bool)) (es : List PollFd) : ℕ :=
  (es.countP fun e =>
      rd.isSome && hasFlag e.revents (pollIn ||| pollHup ||| pollErr ||| pollNval)) +
    es.countP fun e => wr.isSome && hasFlag e.revents (pollOut ||| pollErr ||| pollNval)

/-- `select` and `pselect6`, with their bound in milliseconds. -/
def okmSelect (w : PortState) (nfds : Int) (rd wr : Option (ℕ → Bool)) (timeoutMs : Int)
    (rounds : List (ℕ → IoEnv)) : Polled :=
  match selectSet nfds rd wr with
  | .error e => ⟨w, some (.error e), [], []⟩
  | .ok es =>
    let p := w.okmPoll (some es) timeoutMs rounds
    match p.result with
    | some (.ok _) => { p with result := some (.ok (selectCount rd wr p.entries)) }
    | _ => p

end PortState

/-! ## What an enquiry can do -/

/-- What an enquiry of the description `d` can do: nothing, or take a byte, an end of input, a
connection or a message where none is held, and keep it. -/
inductive Waited (w : PortState) (d : Fin okmMaxDesc) : Enquiry → Prop
  | same (result : Except Errno Bool) : Waited w d ⟨w, result, [], [], none⟩
  | byte (b : UInt8) (none_ : (w.desc d).ahead = false ∧ (w.desc d).aheadEof = false) :
    Waited w d ⟨w.setDesc d { w.desc d with ahead := true, aheadByte := b }, .ok true, [],
      [.byte b], none⟩
  | eof (none_ : (w.desc d).ahead = false ∧ (w.desc d).aheadEof = false) :
    Waited w d ⟨w.setDesc d { w.desc d with aheadEof := true }, .ok true, [], [.eof], none⟩
  | conn (slot : Fin okmMaxSock) (c : Handle) (hslot : w.sockOf d = some slot)
    (listen : (w.sock slot).state = .listen) (none_ : (w.sock slot).pendConn = false) :
    Waited w d ⟨w.keepConn slot c, .ok true, [.conn c], [], none⟩
  | buf (slot : Fin okmMaxSock) (result : Except Errno Bool) (hslot : w.sockOf d = some slot)
    (dgram : (w.sock slot).state = .dgram) (none_ : (w.sock slot).pendMsg = false) :
    Waited w d ⟨w.obtainBuf slot, result, [], [], none⟩
  | message (slot : Fin okmMaxSock) (m : Message) (hslot : w.sockOf d = some slot)
    (dgram : (w.sock slot).state = .dgram) (none_ : (w.sock slot).pendMsg = false) :
    Waited w d ⟨(w.obtainBuf slot).keepMessage slot m, .ok true, [], [], some m⟩

namespace PortState

theorem waited_waitByte {w : PortState} {d : Fin okmMaxDesc}
    (hnone : (w.desc d).ahead = false ∧ (w.desc d).aheadEof = false) (env : IoEnv) (ns : ℕ) :
    Waited w d (w.waitByte env d ns) := by
  unfold waitByte
  cases env.timeoutRead with
  | none => exact .same _
  | some read =>
    simp only
    split
    · exact .same _
    · exact .same _
    · exact .eof hnone
    · exact .byte _ hnone

theorem waited_waitConn {w : PortState} {d : Fin okmMaxDesc} {slot : Fin okmMaxSock}
    (hslot : w.sockOf d = some slot) (hlisten : (w.sock slot).state = .listen) (env : IoEnv)
    (ns : ℕ) : Waited w d (w.waitConn env slot ns) := by
  unfold waitConn
  split_ifs with hpend
  · exact .same _
  · cases env.timeoutAccept with
    | none => exact .same _
    | some accept =>
      simp only
      split
      · exact .same _
      · exact .same _
      · exact .conn slot _ hslot hlisten (by simpa using hpend)

theorem waited_waitMessage {w : PortState} {d : Fin okmMaxDesc} {slot : Fin okmMaxSock}
    (hslot : w.sockOf d = some slot) (hdgram : (w.sock slot).state = .dgram) (env : IoEnv)
    (ns : ℕ) : Waited w d (w.waitMessage env slot ns) := by
  unfold waitMessage
  by_cases hpend : (w.sock slot).pendMsg = true
  · rw [if_pos hpend]
    exact .same _
  · have hnone : (w.sock slot).pendMsg = false := by simpa using hpend
    rw [if_neg hpend]
    cases env.timeoutRecvFrom with
    | none => exact .same _
    | some recv =>
      simp only
      split_ifs
      · exact .same _
      · split
        · exact .buf slot _ hslot hdgram hnone
        · exact .buf slot _ hslot hdgram hnone
        · exact .message slot _ hslot hdgram hnone

/-- A message is kept in the memory that was obtained for it. -/
theorem keepMessage_obtainBuf (w : PortState) (slot : Fin okmMaxSock) (m : Message) :
    (w.obtainBuf slot).keepMessage slot m = w.setSlot slot { w.sock slot with
      buf := some (m.data.take okmDgramMax), pendLen := (m.data.take okmDgramMax).length,
      pendFrom := m.sender, pendMsg := true } := by
  simp [keepMessage, obtainBuf, setSlot]

/-- **What an enquiry can do.** -/
theorem waited_waitIn (w : PortState) (env : IoEnv) (d : Fin okmMaxDesc) (ns : ℕ) :
    Waited w d (w.waitIn env d ns) := by
  unfold waitIn
  split_ifs with hheld hown
  · exact .same _
  · unfold okmSockWaitIn
    cases hslot : w.sockOf d with
    | none => exact .same _
    | some slot =>
      simp only
      cases hstate : (w.sock slot).state with
      | listen => exact waited_waitConn hslot hstate env ns
      | dgram => exact waited_waitMessage hslot hstate env ns
      | free => exact .same _
      | new => exact .same _
      | conn => exact .same _
  · exact waited_waitByte (by simpa [not_or] using hheld) env ns

/-! ## A call leaves what its enquiries leave -/

/-- The table after enquiries that were made one after another. -/
def asking (w : PortState) (asked : List Asked) : PortState :=
  asked.foldl (fun w a => (w.waitIn a.env a.d a.ns).port) w

theorem asking_append (w : PortState) (as bs : List Asked) :
    w.asking (as ++ bs) = (w.asking as).asking bs := List.foldl_append ..

/-- A system whose enquiries leave the table as an enquiry does. -/
theorem asking_of_run {σ : Type*} (port : σ → PortState) {ask : σ → Asked → Option σ}
    (hask : ∀ s a t, ask s a = some t → port t = ((port s).waitIn a.env a.d a.ns).port) {s t : σ}
    {asked : List Asked} (h : run ask s asked = some t) : port t = (port s).asking asked := by
  induction asked generalizing s with
  | nil =>
    cases h
    rfl
  | cons a asked ih =>
    obtain ⟨u, hu, hrun⟩ := run_cons.mp h
    rw [ih hrun, hask s a u hu]
    rfl

theorem pollOne_port {w : PortState} {ns : ℕ} {r : Round} (h : r.port = w.asking r.asked)
    (e : PollFd) (env : IoEnv) : (pollOne ns r e env).port =
      w.asking (pollOne ns r e env).asked := by
  unfold pollOne
  split_ifs
  · exact h
  · split
    · exact h
    · rename_i d _
      simp only
      split_ifs
      · exact h
      · have hasked : (r.port.waitIn env d ns).port = w.asking (r.asked ++ [⟨d, ns, env⟩]) := by
          rw [asking_append, ← h]
          rfl
        split <;> exact hasked
      · exact h

theorem pollRound_port {w : PortState} (ns : ℕ) (env : ℕ → IoEnv) {r : Round}
    (h : r.port = w.asking r.asked) (i : ℕ) (es : List PollFd) :
    (pollRound ns env r i es).port = w.asking (pollRound ns env r i es).asked := by
  induction es generalizing r i with
  | nil => exact h
  | cons e es ih => exact ih (pollOne_port h e (env i)) (i + 1)

theorem pollRounds_port (w₀ : PortState) {w : PortState} (fds : List PollFd)
    (single forever : Bool) (left : ℕ) (asked : List Asked) (h : w = w₀.asking asked)
    (rounds : List (ℕ → IoEnv)) :
    (pollRounds fds single forever w left asked rounds).port =
      w₀.asking (pollRounds fds single forever w left asked rounds).asked := by
  induction rounds generalizing w left asked with
  | nil => exact h
  | cons env rounds ih =>
    unfold pollRounds
    simp only
    -- the round's enquiries follow those of the rounds before it
    generalize (if single then (if forever then 0 else if left ≠ 0 then left else okmNowNs)
      else okmNowNs) = ns
    have hround := pollRound_port (w := w) ns env (r := { port := w }) rfl 0 fds
    generalize pollRound ns env { port := w } 0 fds = r at hround ⊢
    have hall : r.port = w₀.asking (asked ++ r.asked) := by
      rw [asking_append, ← h]
      exact hround
    cases r.failure with
    | some e => split_ifs <;> exact hall
    | none =>
      simp only
      split_ifs
      · exact hall
      · exact hall
      · exact hall
      · exact ih _ _ hall
      · exact ih _ _ hall
      · exact ih _ _ hall
      · exact ih _ _ hall

/-- **`poll`** leaves the table that its enquiries leave. -/
theorem okmPoll_port (w : PortState) (fds : Option (List PollFd)) (timeoutMs : Int)
    (rounds : List (ℕ → IoEnv)) :
    (w.okmPoll fds timeoutMs rounds).port = w.asking (w.okmPoll fds timeoutMs rounds).asked := by
  unfold okmPoll
  cases fds with
  | none => rfl
  | some fds =>
    simp only
    split_ifs
    · rfl
    all_goals exact pollRounds_port w _ _ _ _ [] rfl _

/-- **`select`** does. -/
theorem okmSelect_port (w : PortState) (nfds : Int) (rd wr : Option (ℕ → Bool)) (timeoutMs : Int)
    (rounds : List (ℕ → IoEnv)) :
    (w.okmSelect nfds rd wr timeoutMs rounds).port =
      w.asking (w.okmSelect nfds rd wr timeoutMs rounds).asked := by
  unfold okmSelect
  cases selectSet nfds rd wr with
  | error e => rfl
  | ok es =>
    have hport := okmPoll_port w (some es) timeoutMs rounds
    simp only
    split <;> exact hport

end PortState

end OpenkalMusl
