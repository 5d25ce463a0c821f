import OpenkalMusl.Descriptors.Ledger

/-!
# Reading, and what a readiness enquiry left to be read

openkal has no operation that says whether a read would wait: an enquiry attempts the transfer and
keeps what it produced in the description, one byte or an end of input, and every path that reads
delivers that first (`okm_take_ahead` and the bounded transfers of `okm_poll.c`, `do_read_stream`,
`do_read` and `readv` of `okm_syscall.c`).

What the environment answers to an operation is a parameter (`IoEnv`). A call reports what it took
from the environment, so that a run of calls can be compared with what the program was given.

## Main definitions

* `Item`: a byte, or an end of input
* `IoEnv`: what the environment answers
* `okmTakeAhead`, `okmTimedRead`: what is held, and a read bounded in time
* `doReadStream`, `doRead`, `doReadv`: the calls that read
-/

namespace OpenkalMusl

/-- What a stream yields: bytes, and indications that the input ends. -/
inductive Item where
  | byte (b : UInt8)
  | eof
  deriving DecidableEq, Repr

/-- A datagram, with its sender. -/
structure Message where
  data : List UInt8
  sender : Endpoint
  deriving DecidableEq

/-- What the environment answers during one call; a weak operation that is absent answers `none`,
and an operation that is bounded answers for each bound. A read answers with the bytes that have
arrived, of which those that fit are given; none is an end of input. -/
structure IoEnv where
  /-- `kal_timeout_read`, `kal_stream_read`. -/
  timeoutRead : Option (ℕ → Except KalError (List UInt8))
  streamRead : Except KalError (List UInt8)
  /-- `kal_timeout_write`, `kal_stream_write`: the count. -/
  timeoutWrite : Option (ℕ → Except KalError ℕ)
  streamWrite : Except KalError ℕ
  haveNet : Bool
  haveDgram : Bool
  /-- `kal_net_listen`, `kal_net_connect` and the stream of the connection. -/
  netListen : Except KalError Handle
  netConnect : Except KalError Handle
  connStream : Handle
  timeoutAccept : Option (ℕ → Except KalError Handle)
  /-- `kal_datagram_open`, `kal_datagram_send_to`. -/
  datagramOpen : Except KalError Handle
  sendTo : Except KalError ℕ
  /-- `kal_datagram_recv_from`, `kal_timeout_recv_from`: the message that has arrived. -/
  recvFrom : Except KalError Message
  timeoutRecvFrom : Option (ℕ → Except KalError Message)
  /-- `kal_net_peer`, `kal_net_local`, `kal_net_listener_local`, `kal_datagram_local`. -/
  netPeer : Except KalError Endpoint
  netLocal : Except KalError Endpoint
  listenerLocal : Except KalError Endpoint
  datagramLocal : Except KalError Endpoint
  /-- Whether memory for a message can be had. -/
  malloc : Bool

/-- The smallest bound there is: what has already arrived. -/
def okmNowNs : ℕ := 1

def okmCanBound (env : IoEnv) : Bool := env.timeoutRead.isSome

/-- What a read of `len` bytes that gave `got` took from the stream. -/
def itemsOf (len : ℕ) (got : List UInt8) : List Item :=
  if len = 0 then [] else if got = [] then [.eof] else got.map .byte

/-- A read: the bytes given or the error, and what was taken from the stream. -/
structure Transfer where
  result : Except Errno (List UInt8)
  took : List Item

/-- A transfer that the environment performs, of at most `len` bytes. -/
def transferOf (len : ℕ) : Except KalError (List UInt8) → Transfer
  | .error e => ⟨.error (okmErrno e), []⟩
  | .ok bytes => ⟨.ok (bytes.take len), itemsOf len (bytes.take len)⟩

def okmTimedRead (env : IoEnv) (len ns : ℕ) : Transfer :=
  match env.timeoutRead with
  | none => ⟨.error .enosys, []⟩
  | some read => if len = 0 then ⟨.ok [], []⟩ else transferOf len (read ns)

def okmTimedWrite (env : IoEnv) (len ns : ℕ) : Except Errno ℕ :=
  match env.timeoutWrite with
  | none => .error .enosys
  | some write => if len = 0 then .ok 0 else (write ns).mapError okmErrno

/-- What an enquiry left: nothing, a byte, or an end of input. -/
inductive Ahead where
  | nothing
  | byte (b : UInt8)
  | eof
  deriving DecidableEq

/-- What is held is taken: a byte where there is room for it, and otherwise an end. -/
def okmTakeAhead (p : Desc) (len : ℕ) : Desc × Ahead :=
  if p.ahead && len != 0 then ({ p with ahead := false }, .byte p.aheadByte)
  else if p.aheadEof then ({ p with aheadEof := false }, .eof)
  else (p, .nothing)

/-- What a call that reads leaves: the table, the bytes in the buffer or the error, and what was
taken from the stream. -/
structure Reading where
  port : PortState
  result : Except Errno (List UInt8)
  took : List Item

namespace PortState

/-- The stream a descriptor reads, by its description. -/
def streamOf (p : Desc) : Except Errno Handle :=
  match p.kind with
  | .stream | .channel | .file => .ok p.stream
  | .socket => if p.stream = 0 then .error .enotconn else .ok p.stream
  | _ => .error .eisdir

/-- A read, where an enquiry left a byte: the byte, and whatever else has arrived. -/
def readOn (w : PortState) (env : IoEnv) (b : UInt8) (len : ℕ) : Reading :=
  if 1 < len ∧ okmCanBound env then
    let more := okmTimedRead env (len - 1) okmNowNs
    match more.result with
    | .ok (c :: rest) => ⟨w, .ok (b :: c :: rest), more.took⟩
    | _ => ⟨w, .ok [b], more.took⟩
  else ⟨w, .ok [b], []⟩

def doReadStream (w : PortState) (env : IoEnv) (fd : Int) (len : ℕ) : Reading :=
  match w.okmDescOf fd with
  | none => ⟨w, .error .ebadf, []⟩
  | some d =>
    if (w.desc d).kind = .null then ⟨w, .ok [], []⟩
    else match streamOf (w.desc d) with
      | .error e => ⟨w, .error e, []⟩
      | .ok _ =>
        if len = 0 then ⟨w, .ok [], []⟩
        else match okmTakeAhead (w.desc d) len with
          | (p, .eof) => ⟨w.setDesc d p, .ok [], []⟩
          | (p, .byte b) => (w.setDesc d p).readOn env b len
          | (_, .nothing) =>
            let t := if hasFlag (w.desc d).flags oNonblock then okmTimedRead env len okmNowNs
              else transferOf len env.streamRead
            ⟨w, t.result, t.took⟩

/-- What this library alters of what is typed at a terminal. -/
structure TermAlter where
  istrip : Bool := false
  icrnl : Bool := false
  deriving DecidableEq

def TermAlter.byte (a : TermAlter) (b : UInt8) : UInt8 :=
  let b := if a.istrip then b &&& 0x7f else b
  if a.icrnl ∧ b = 0x0d then 0x0a else b

/-- A read, with what it gives altered where the stream is a terminal's; `interactive` is what
`kal_stream_props` says of it. -/
def doRead (w : PortState) (env : IoEnv) (alter : TermAlter) (interactive : Bool) (fd : Int)
    (len : ℕ) : Reading :=
  let r := w.doReadStream env fd len
  match r.result, r.port.okmDescOf fd with
  | .ok bytes, some d =>
    if alter ≠ {} ∧ (r.port.desc d).kind = .stream ∧ interactive then
      { r with result := .ok (bytes.map alter.byte) }
    else r
  | _, _ => r

/-- `readv`: the buffers are read one after another, until one is not filled; each comes with what
the environment answers to its read. -/
def doReadv (w : PortState) (alter : TermAlter) (interactive : Bool) (fd : Int) :
    List (ℕ × IoEnv) → Reading
  | [] => ⟨w, .ok [], []⟩
  | (len, env) :: v =>
    if len = 0 then w.doReadv alter interactive fd v
    else
      let r := w.doRead env alter interactive fd len
      match r.result with
      | .error e => ⟨r.port, .error e, r.took⟩
      | .ok bytes =>
        if bytes.length < len then r
        else
          let rest := r.port.doReadv alter interactive fd v
          -- an error after some bytes is not reported: they are
          ⟨rest.port, .ok (bytes ++ rest.result.toOption.getD []), r.took ++ rest.took⟩

end PortState

end OpenkalMusl
