import OpenkalMusl.Input.ReadAhead

/-!
# Calls on a socket

`bind`, `listen`, `connect`, `send`, `recv`, `getsockname`, `getpeername` and `setsockopt`
(`okm_net.c`). A socket that `socket` made holds nothing: `bind` records an endpoint, and the
openkal object is made when it is needed, at `listen` or `connect`, and for a datagram socket at the
first of `bind`, `connect`, `send` and `recv`.

A call that fails because its arguments are refused, or because the openkal operation that would
have bound, listened or connected failed, ought to leave the socket as it was. Two do not: a `bind`
of a datagram socket records the endpoint before it opens the socket there, and a `recv` that has to
be bounded opens the socket before it finds that nothing can bound it.

## Main definitions

* `SockCall.run`: the calls
* `SockCall.Leaves`: the calls that leave a trace

## Main results

* `undisturbed_iff`: a call that is refused leaves the socket as it was exactly when it is none of
  those
* `bind_leaves_endpoint`: a `bind` that fails and is answered by `getsockname`
-/

namespace OpenkalMusl

open Transition PortState

section Constants

def msgDontwait : ℕ := 0x40
def msgNosignal : ℕ := 0x4000
def solSocket : Int := 1
def soReuseaddr : Int := 2
def soRcvtimeo : Int := 20
def soSndtimeo : Int := 21

end Constants

/-- Why a call on a socket fails. -/
inductive Fault where
  /-- The arguments are refused, or the socket is in no state for them. -/
  | refused (e : Errno)
  /-- The openkal operation that would have bound, listened or connected failed. -/
  | undone (e : Errno)
  /-- The transfer failed. -/
  | transfer (e : Errno)
  deriving DecidableEq

/-- The error that is returned. -/
def Fault.errno : Fault → Errno
  | .refused e | .undone e | .transfer e => e

/-- Whether the call was refused, or failed to bind, listen or connect. -/
def Fault.beforehand : Fault → Bool
  | .refused _ | .undone _ => true
  | .transfer _ => false

/-- What a call on a socket answers: the value returned, and the bytes and the endpoint given. -/
structure Answer where
  value : ℕ := 0
  data : List UInt8 := []
  endpoint : Option Endpoint := none
  deriving DecidableEq

/-- What a call on a socket leaves: the table, the answer, the handles it obtained, and what it took
from the environment. -/
structure SockOutcome where
  port : PortState
  result : Except Fault Answer
  obtained : List Resource := []
  took : List Item := []
  message : Option Message := none

inductive SockCall where
  | bind (addr : Option Bytes) (len : ℕ)
  | listen
  | connect (addr : Option Bytes) (len : ℕ)
  | send (len flags : ℕ) (addr : Option Bytes) (alen : ℕ)
  | recv (len flags : ℕ)
  /-- `getsockname` and `getpeername`; `out` says whether there is a place for the address. -/
  | name (peer out : Bool)
  /-- The time is that of a `timeval`, where one is given whole. -/
  | setopt (level opt : Int) (time : Option (Int × Int))

namespace PortState

def refuse (w : PortState) (e : Errno) : SockOutcome := ⟨w, .error (.refused e), [], [], none⟩

/-- The slot of the description's socket. -/
def sockOf (w : PortState) (d : Fin okmMaxDesc) : Option (Fin okmMaxSock) :=
  if (w.desc d).kind = .socket then (w.desc d).sock else none

def setSlot (w : PortState) (slot : Fin okmMaxSock) (s : Sock) : PortState :=
  { w with sock := Function.update w.sock slot s }

/-- What every call on a socket begins with. -/
def onSocket (w : PortState) (fd : Int)
    (k : Fin okmMaxDesc → Fin okmMaxSock → SockOutcome) : SockOutcome :=
  match w.okmDescOf fd with
  | none => w.refuse .ebadf
  | some d =>
    match w.sockOf d with
    | none => w.refuse .enotsock
    | some slot => k d slot

/-- The endpoint of a `bind` is recorded. -/
def recordLocal (w : PortState) (slot : Fin okmMaxSock) (ep : Endpoint) : PortState :=
  w.setSlot slot { w.sock slot with localEnd := ep, haveLocal := true }

/-- The endpoint of a `connect` is recorded. -/
def recordPeer (w : PortState) (slot : Fin okmMaxSock) (ep : Endpoint) : PortState :=
  w.setSlot slot { w.sock slot with peerEnd := ep, havePeer := true }

/-- The socket has a datagram endpoint. -/
def becomeDatagram (w : PortState) (slot : Fin okmMaxSock) (h : Handle) : PortState :=
  w.setSlot slot { w.sock slot with dg := h, state := .dgram }

/-- The socket has a listener. -/
def becomeListener (w : PortState) (slot : Fin okmMaxSock) (h : Handle) : PortState :=
  w.setSlot slot { w.sock slot with lis := h, state := .listen }

/-- The socket has a connection, and its description the connection's stream. -/
def becomeConn (w : PortState) (d : Fin okmMaxDesc) (slot : Fin okmMaxSock) (h stream : Handle) :
    PortState :=
  let w := w.setSlot slot { w.sock slot with conn := h, state := .conn }
  w.setDesc d { w.desc d with stream := stream }

/-- The part of `bind` after the endpoint is recorded: a datagram socket is opened there. -/
def bindOpen (w : PortState) (env : IoEnv) (slot : Fin okmMaxSock) : SockOutcome :=
  if (w.sock slot).type = sockDgram then
    if env.haveDgram = false then w.refuse .enosys
    else match env.datagramOpen with
      | .error e => ⟨w, .error (.undone (okmErrno e)), [], [], none⟩
      | .ok h => ⟨w.becomeDatagram slot h, .ok {}, [.datagram h], [], none⟩
  else ⟨w, .ok {}, [], [], none⟩

/-- `bind` on a socket. -/
def bindSlot (w : PortState) (env : IoEnv) (slot : Fin okmMaxSock) (addr : Option Bytes)
    (len : ℕ) : SockOutcome :=
  if (w.sock slot).state ≠ .new then w.refuse .einval
  else match toEndpoint addr len with
    | .error e => w.refuse e
    | .ok ep => (w.recordLocal slot ep).bindOpen env slot

def okmSockBind (w : PortState) (env : IoEnv) (fd : Int) (addr : Option Bytes) (len : ℕ) :
    SockOutcome :=
  w.onSocket fd fun _ slot => w.bindSlot env slot addr len

/-- `listen` on a socket. -/
def listenSlot (w : PortState) (env : IoEnv) (slot : Fin okmMaxSock) : SockOutcome :=
  let s := w.sock slot
  if s.type ≠ sockStream then w.refuse .eopnotsupp
  else if s.state = .listen then ⟨w, .ok {}, [], [], none⟩
  else if s.state ≠ .new then w.refuse .einval
  else if env.haveNet = false then w.refuse .enosys
  else match env.netListen with
    | .error e => ⟨w, .error (.undone (okmErrno e)), [], [], none⟩
    | .ok h => ⟨w.becomeListener slot h, .ok {}, [.listener h], [], none⟩

def okmSockListen (w : PortState) (env : IoEnv) (fd : Int) : SockOutcome :=
  w.onSocket fd fun _ slot => w.listenSlot env slot

/-- A datagram socket that has no openkal object yet is opened, and the call goes on. -/
def withDatagram (w : PortState) (env : IoEnv) (slot : Fin okmMaxSock)
    (k : PortState → List Resource → SockOutcome) : SockOutcome :=
  if (w.sock slot).state = .new then
    match env.datagramOpen with
    | .error e => ⟨w, .error (.undone (okmErrno e)), [], [], none⟩
    | .ok h => k (w.becomeDatagram slot h) [.datagram h]
  else k w []

/-- `connect` on a socket. -/
def connectSlot (w : PortState) (env : IoEnv) (d : Fin okmMaxDesc) (slot : Fin okmMaxSock)
    (addr : Option Bytes) (len : ℕ) : SockOutcome :=
  let s := w.sock slot
  match toEndpoint addr len with
  | .error e => w.refuse e
  | .ok ep =>
    if s.type = sockDgram then
      if env.haveDgram = false then w.refuse .enosys
      else w.withDatagram env slot fun w obtained =>
        ⟨w.recordPeer slot ep, .ok {}, obtained, [], none⟩
    else if s.state = .conn then w.refuse .eisconn
    else if s.state ≠ .new then w.refuse .einval
    else if env.haveNet = false then w.refuse .enosys
    else match env.netConnect with
      | .error e => ⟨w, .error (.undone (okmErrno e)), [], [], none⟩
      | .ok h =>
        ⟨(w.becomeConn d slot h env.connStream).recordPeer slot ep, .ok {}, [.conn h], [], none⟩

def okmSockConnect (w : PortState) (env : IoEnv) (fd : Int) (addr : Option Bytes) (len : ℕ) :
    SockOutcome :=
  w.onSocket fd fun d slot => w.connectSlot env d slot addr len

/-- The bound an operation carries: none, the socket's, or the smallest there is. -/
def boundOf (p : Desc) (s : Sock) (flags : ℕ) (receiving : Bool) : ℕ :=
  if hasFlag flags msgDontwait ∨ hasFlag p.flags oNonblock then okmNowNs
  else if receiving then s.rcvBound else s.sndBound

/-- The endpoint a datagram is sent to: the one given, or the one `connect` recorded. -/
def destination (s : Sock) (addr : Option Bytes) (alen : ℕ) : Except Errno Endpoint :=
  match addr with
  | some _ => toEndpoint addr alen
  | none => if s.havePeer then .ok s.peerEnd else .error .edestaddrreq

/-- What `send` answers: the count, or the error of the transfer. -/
def sent (w : PortState) (obtained : List Resource) (r : Except Errno ℕ) : SockOutcome :=
  ⟨w, (r.mapError .transfer).map ({ value := · }), obtained, [], none⟩

/-- `send` on a socket. -/
def sendSlot (w : PortState) (env : IoEnv) (d : Fin okmMaxDesc) (slot : Fin okmMaxSock)
    (len flags : ℕ) (addr : Option Bytes) (alen : ℕ) : SockOutcome :=
  let s := w.sock slot
  if otherFlags flags (msgNosignal ||| msgDontwait) ≠ 0 then w.refuse .enosys
  else if s.type = sockDgram then
    if env.haveDgram = false then w.refuse .enosys
    else match destination s addr alen with
      | .error e => w.refuse e
      | .ok _ =>
        w.withDatagram env slot fun w obtained => w.sent obtained (env.sendTo.mapError okmErrno)
  else if s.state ≠ .conn then w.refuse .enotconn
  else if addr.isSome then w.refuse .eisconn
  else
    let ns := boundOf (w.desc d) s flags false
    if ns ≠ 0 then w.sent [] (okmTimedWrite env len ns)
    else w.sent [] (env.streamWrite.mapError okmErrno)

def okmSockSend (w : PortState) (env : IoEnv) (fd : Int) (len flags : ℕ) (addr : Option Bytes)
    (alen : ℕ) : SockOutcome :=
  w.onSocket fd fun d slot => w.sendSlot env d slot len flags addr alen

/-- A message is given, cut to the caller's buffer. -/
def deliver (w : PortState) (obtained : List Resource) (m : Message) (len : ℕ)
    (took : Option Message) : SockOutcome :=
  ⟨w, .ok { value := (m.data.take len).length, data := m.data.take len, endpoint := some m.sender },
    obtained, [], took⟩

/-- A message that was received by the call itself. -/
def received (w : PortState) (obtained : List Resource) (len : ℕ) :
    Except KalError Message → SockOutcome
  | .error e => ⟨w, .error (.transfer (okmErrno e)), obtained, [], none⟩
  | .ok m => w.deliver obtained m len (some m)

/-- The message that a readiness enquiry took. -/
def pendingMessage (s : Sock) : Message := ⟨(s.buf.getD []).take s.pendLen, s.pendFrom⟩

/-- The part of `recv` that has an open datagram socket. -/
def recvDatagram (w : PortState) (env : IoEnv) (d : Fin okmMaxDesc) (slot : Fin okmMaxSock)
    (len flags : ℕ) (obtained : List Resource) : SockOutcome :=
  let s := w.sock slot
  if s.pendMsg then
    (w.setSlot slot { s with pendMsg := false }).deliver obtained (pendingMessage s) len none
  else
    let ns := boundOf (w.desc d) s flags true
    if ns ≠ 0 then
      match env.timeoutRecvFrom with
      | none => ⟨w, .error (.refused .enosys), obtained, [], none⟩
      | some recv => w.received obtained len (recv ns)
    else w.received obtained len env.recvFrom

/-- What `recv` answers of a stream. -/
def gave (w : PortState) (t : Transfer) : SockOutcome :=
  ⟨w, (t.result.mapError .transfer).map fun bytes => { value := bytes.length, data := bytes }, [],
    t.took, none⟩

/-- The part of `recv` that has a connection. -/
def recvStream (w : PortState) (env : IoEnv) (d : Fin okmMaxDesc) (slot : Fin okmMaxSock)
    (len flags : ℕ) : SockOutcome :=
  match okmTakeAhead (w.desc d) len with
  | (p, .eof) => (w.setDesc d p).gave ⟨.ok [], []⟩
  | (p, .byte b) => (w.setDesc d p).gave ⟨.ok [b], []⟩
  | (_, .nothing) =>
    let ns := boundOf (w.desc d) (w.sock slot) flags true
    w.gave (if ns ≠ 0 then okmTimedRead env len ns else transferOf len env.streamRead)

/-- `recv` on a socket. -/
def recvSlot (w : PortState) (env : IoEnv) (d : Fin okmMaxDesc) (slot : Fin okmMaxSock)
    (len flags : ℕ) : SockOutcome :=
  let s := w.sock slot
  if otherFlags flags (msgNosignal ||| msgDontwait) ≠ 0 then w.refuse .enosys
  else if s.type = sockDgram then
    if env.haveDgram = false then w.refuse .enosys
    else w.withDatagram env slot fun w obtained => w.recvDatagram env d slot len flags obtained
  else if s.state ≠ .conn then w.refuse .enotconn
  else w.recvStream env d slot len flags

def okmSockRecv (w : PortState) (env : IoEnv) (fd : Int) (len flags : ℕ) : SockOutcome :=
  w.onSocket fd fun d slot => w.recvSlot env d slot len flags

/-- The endpoint that `getsockname` and `getpeername` report. -/
def endpointOf (env : IoEnv) (s : Sock) (peer : Bool) : Except Errno Endpoint :=
  if peer then
    if s.state = .conn then env.netPeer.mapError okmErrno
    else if s.havePeer then .ok s.peerEnd
    else .error .enotconn
  else match s.state with
    | .conn => env.netLocal.mapError okmErrno
    | .listen => env.listenerLocal.mapError okmErrno
    | .dgram => env.datagramLocal.mapError okmErrno
    | _ => if s.haveLocal then .ok s.localEnd else .error .einval

/-- `getsockname` or `getpeername` of a socket. -/
def nameSlot (w : PortState) (env : IoEnv) (slot : Fin okmMaxSock) (peer out : Bool) :
    SockOutcome :=
  if out = false then w.refuse .efault
  else match endpointOf env (w.sock slot) peer with
    | .error e => w.refuse e
    | .ok ep =>
      match (fromEndpoint ep 0).1 with
      | .error e => w.refuse e
      | .ok () => ⟨w, .ok { endpoint := some ep }, [], [], none⟩

def okmSockName (w : PortState) (env : IoEnv) (fd : Int) (peer out : Bool) : SockOutcome :=
  w.onSocket fd fun _ slot => w.nameSlot env slot peer out

/-- The bound of a `timeval`, as a machine word; `none` where it is not given whole. -/
def nsOfTimeval (time : Option (Int × Int)) : ℕ :=
  match time with
  | none => 2 ^ 64 - 1
  | some (sec, usec) =>
    if sec = 0 ∧ usec = 0 then 0
    else
      let ns := ((sec * 1000000000 + usec * 1000) % (2 ^ 64 : ℕ)).toNat
      if ns ≠ 0 then ns else okmNowNs

/-- `setsockopt` on a socket. -/
def setoptSlot (w : PortState) (env : IoEnv) (slot : Fin okmMaxSock) (level opt : Int)
    (time : Option (Int × Int)) : SockOutcome :=
  let s := w.sock slot
  if level ≠ solSocket then w.refuse .enoprotoopt
  else if opt = soReuseaddr then ⟨w, .ok {}, [], [], none⟩
  else if opt = soRcvtimeo ∨ opt = soSndtimeo then
    let ns := nsOfTimeval time
    if ns = 2 ^ 64 - 1 then w.refuse .einval
    else if ns ≠ 0 ∧ okmCanBound env = false then w.refuse .enosys
    else
      ⟨w.setSlot slot (if opt = soRcvtimeo then { s with rcvBound := ns }
        else { s with sndBound := ns }), .ok {}, [], [], none⟩
  else w.refuse .enoprotoopt

def okmSockSetopt (w : PortState) (env : IoEnv) (fd : Int) (level opt : Int)
    (time : Option (Int × Int)) : SockOutcome :=
  w.onSocket fd fun _ slot => w.setoptSlot env slot level opt time

end PortState

/-- A call on a socket. -/
def SockCall.run (env : IoEnv) (w : PortState) (fd : Int) : SockCall → SockOutcome
  | .bind addr len => w.okmSockBind env fd addr len
  | .listen => w.okmSockListen env fd
  | .connect addr len => w.okmSockConnect env fd addr len
  | .send len flags addr alen => w.okmSockSend env fd len flags addr alen
  | .recv len flags => w.okmSockRecv env fd len flags
  | .name peer out => w.okmSockName env fd peer out
  | .setopt level opt time => w.okmSockSetopt env fd level opt time

/-! ## A call that is refused -/

/-- The sockets are as they were, and every later call answers as if the call had not been made. -/
structure AsBefore (w v : PortState) : Prop where
  state : ∀ slot, (v.sock slot).state = (w.sock slot).state
  haveLocal : ∀ slot, (v.sock slot).haveLocal = (w.sock slot).haveLocal
  localEnd : ∀ slot, (v.sock slot).localEnd = (w.sock slot).localEnd
  havePeer : ∀ slot, (v.sock slot).havePeer = (w.sock slot).havePeer
  peerEnd : ∀ slot, (v.sock slot).peerEnd = (w.sock slot).peerEnd
  stream : ∀ d, (v.desc d).stream = (w.desc d).stream
  answers : ∀ env fd call, (SockCall.run env v fd call).result = (SockCall.run env w fd call).result

theorem AsBefore.refl (w : PortState) : AsBefore w w where
  state := fun _ => rfl
  haveLocal := fun _ => rfl
  localEnd := fun _ => rfl
  havePeer := fun _ => rfl
  peerEnd := fun _ => rfl
  stream := fun _ => rfl
  answers := fun _ _ _ => rfl

/-- Where a call was refused or failed to bind, listen or connect, the sockets are as before. -/
def SockOutcome.Undisturbed (w : PortState) (o : SockOutcome) : Prop :=
  ∀ f, o.result = .error f → f.beforehand = true → AsBefore w o.port

/-- A `bind` of a datagram socket that is not opened there, and records another endpoint. -/
def PortState.BindLeaves (env : IoEnv) (w : PortState) (slot : Fin okmMaxSock)
    (addr : Option Bytes) (len : ℕ) : Prop :=
  (w.sock slot).state = .new ∧ (w.sock slot).type = sockDgram ∧
    (env.haveDgram = true → ∃ e, env.datagramOpen = .error e) ∧
    ∃ ep, toEndpoint addr len = .ok ep ∧
      ¬ ((w.sock slot).haveLocal = true ∧ (w.sock slot).localEnd = ep)

/-- A `recv` that opens a datagram socket and would have to be bounded, where nothing can. -/
def PortState.RecvLeaves (env : IoEnv) (w : PortState) (d : Fin okmMaxDesc)
    (slot : Fin okmMaxSock) (flags : ℕ) : Prop :=
  (w.sock slot).state = .new ∧ (w.sock slot).type = sockDgram ∧ (w.sock slot).pendMsg = false ∧
    otherFlags flags (msgNosignal ||| msgDontwait) = 0 ∧ env.haveDgram = true ∧
    (∃ h, env.datagramOpen = .ok h) ∧ boundOf (w.desc d) (w.sock slot) flags true ≠ 0 ∧
    env.timeoutRecvFrom = none

/-- The calls that are refused and leave a trace. -/
def SockCall.Leaves (env : IoEnv) (w : PortState) (fd : Int) : SockCall → Prop
  | .bind addr len =>
    ∃ d slot, w.okmDescOf fd = some d ∧ w.sockOf d = some slot ∧ w.BindLeaves env slot addr len
  | .recv _ flags =>
    ∃ d slot, w.okmDescOf fd = some d ∧ w.sockOf d = some slot ∧ w.RecvLeaves env d slot flags
  | _ => False

namespace PortState

theorem undisturbed_of_port {w : PortState} {o : SockOutcome} (h : o.port = w) :
    o.Undisturbed w := by
  intro f _ _
  rw [h]
  exact AsBefore.refl w

theorem undisturbed_refuse (w : PortState) (e : Errno) : (w.refuse e).Undisturbed w :=
  undisturbed_of_port rfl

/-- A call that succeeded, or failed in the transfer, was not refused. -/
theorem undisturbed_of_result {w : PortState} {o : SockOutcome}
    (h : ∀ f, o.result = .error f → f.beforehand = false) : o.Undisturbed w := by
  intro f hf hb
  rw [h f hf] at hb
  cases hb

/-- What every call on a socket begins with: a refusal, or a description and its slot. -/
theorem onSocket_cases (w : PortState) (fd : Int)
    (k : Fin okmMaxDesc → Fin okmMaxSock → SockOutcome) :
    (∃ e, w.onSocket fd k = w.refuse e ∧
      ∀ d slot, w.okmDescOf fd = some d → w.sockOf d ≠ some slot) ∨
      ∃ d slot, w.okmDescOf fd = some d ∧ w.sockOf d = some slot ∧ w.onSocket fd k = k d slot := by
  unfold onSocket
  cases hd : w.okmDescOf fd with
  | none => exact Or.inl ⟨.ebadf, rfl, nofun⟩
  | some d =>
    cases hs : w.sockOf d with
    | none =>
      refine Or.inl ⟨.enotsock, by simp only [hs], fun d' slot hd' => ?_⟩
      rw [← Option.some.inj hd', hs]
      nofun
    | some slot => exact Or.inr ⟨d, slot, rfl, hs, by simp only [hs]⟩

@[simp] theorem setSlot_desc (w : PortState) (slot : Fin okmMaxSock) (s : Sock) :
    (w.setSlot slot s).desc = w.desc := rfl

@[simp] theorem setSlot_sock (w : PortState) (slot : Fin okmMaxSock) (s : Sock) :
    (w.setSlot slot s).sock slot = s := Function.update_self ..

theorem setSlot_same {w : PortState} {slot : Fin okmMaxSock} {s : Sock} (h : w.sock slot = s) :
    w.setSlot slot s = w := by
  have hsame : Function.update w.sock slot s = w.sock := Function.update_eq_self_iff.mpr h.symm
  rw [setSlot, hsame]

/-- A call that failed beforehand is judged by the table it left. -/
theorem undisturbed_failed {w : PortState} {o : SockOutcome} {f : Fault} (h : o.result = .error f)
    (hb : f.beforehand = true) : o.Undisturbed w ↔ AsBefore w o.port := by
  constructor
  · exact fun hu => hu f h hb
  · exact fun has _ _ _ => has

/-- The slot and its description are those the descriptor names. -/
theorem exists_slot_iff {w : PortState} {fd : Int} {d : Fin okmMaxDesc} {slot : Fin okmMaxSock}
    (hd : w.okmDescOf fd = some d) (hs : w.sockOf d = some slot)
    {P : Fin okmMaxDesc → Fin okmMaxSock → Prop} :
    (∃ d slot, w.okmDescOf fd = some d ∧ w.sockOf d = some slot ∧ P d slot) ↔ P d slot := by
  constructor
  · rintro ⟨d', slot', hd', hs', h⟩
    obtain rfl : d = d' := Option.some.inj (hd.symm.trans hd')
    obtain rfl : slot = slot' := Option.some.inj (hs.symm.trans hs')
    exact h
  · exact fun h => ⟨d, slot, hd, hs, h⟩

/-- An endpoint that is recorded is seen, unless it was there. -/
theorem asBefore_recordLocal_iff (w : PortState) (slot : Fin okmMaxSock) (ep : Endpoint) :
    AsBefore w (w.recordLocal slot ep) ↔
      (w.sock slot).haveLocal = true ∧ (w.sock slot).localEnd = ep := by
  unfold recordLocal
  constructor
  · intro has
    refine ⟨?_, ?_⟩
    · rw [← has.haveLocal slot, setSlot_sock]
    · rw [← has.localEnd slot, setSlot_sock]
  · rintro ⟨hl, he⟩
    have hsame : w.sock slot = { w.sock slot with localEnd := ep, haveLocal := true } := by
      rw [← hl, ← he]
    rw [setSlot_same hsame]
    exact AsBefore.refl w

theorem undisturbed_bindSlot_iff (w : PortState) (env : IoEnv) (slot : Fin okmMaxSock)
    (addr : Option Bytes) (len : ℕ) :
    (w.bindSlot env slot addr len).Undisturbed w ↔ ¬ w.BindLeaves env slot addr len := by
  unfold bindSlot BindLeaves
  by_cases hnew : (w.sock slot).state = .new
  · simp only [hnew, ne_eq, not_true_eq_false, if_false, true_and]
    cases hep : toEndpoint addr len with
    | error e => simp [undisturbed_refuse]
    | ok ep =>
      have hrec := asBefore_recordLocal_iff w slot ep
      have htype : ((w.recordLocal slot ep).sock slot).type = (w.sock slot).type := by
        rw [recordLocal, setSlot_sock]
      simp only [Except.ok.injEq, exists_eq_left', bindOpen, htype]
      by_cases ht : (w.sock slot).type = sockDgram
      · simp only [ht, if_true, true_and]
        -- the endpoint is recorded, and what follows decides
        by_cases hdg : env.haveDgram = true
        · simp only [hdg, Bool.true_eq_false, if_false, true_implies]
          cases hopen : env.datagramOpen with
          | error e =>
            simp only
            rw [undisturbed_failed rfl rfl, hrec]
            simp
          | ok h =>
            refine iff_of_true (undisturbed_of_result nofun) ?_
            rintro ⟨⟨e, he⟩, -⟩
            cases he
        · have hdg' : env.haveDgram = false := by simpa using hdg
          simp only [hdg', if_true, Bool.false_eq_true, false_implies, true_and]
          rw [undisturbed_failed rfl rfl]
          show AsBefore w (w.recordLocal slot ep) ↔ _
          rw [hrec, not_not]
      · simp only [ht, if_false, false_and, not_false_eq_true, iff_true]
        exact undisturbed_of_result nofun
  · simp [hnew, undisturbed_refuse]

/-- A call whose arguments are refused keeps the table, and what it goes on to is judged alone. -/
theorem undisturbed_withDatagram {w : PortState} {env : IoEnv} {slot : Fin okmMaxSock}
    {k : PortState → List Resource → SockOutcome}
    (hk : ∀ v obtained f, (k v obtained).result = .error f → f.beforehand = false) :
    (w.withDatagram env slot k).Undisturbed w := by
  unfold withDatagram
  split_ifs
  · split
    · exact undisturbed_of_port rfl
    · exact undisturbed_of_result (hk _ _)
  · exact undisturbed_of_result (hk _ _)

theorem undisturbed_gave (w v : PortState) (t : Transfer) : (v.gave t).Undisturbed w := by
  refine undisturbed_of_result fun f hf => ?_
  obtain ⟨e | bytes, took⟩ := t
  · cases hf
    rfl
  · cases hf

theorem undisturbed_received (w v : PortState) (obtained : List Resource) (len : ℕ)
    (r : Except KalError Message) : (v.received obtained len r).Undisturbed w := by
  refine undisturbed_of_result fun f hf => ?_
  cases r with
  | error e =>
    cases hf
    rfl
  | ok m => cases hf

theorem undisturbed_listenSlot (w : PortState) (env : IoEnv) (slot : Fin okmMaxSock) :
    (w.listenSlot env slot).Undisturbed w := by
  unfold listenSlot
  simp only
  split_ifs
  · exact undisturbed_refuse _ _
  · exact undisturbed_of_port rfl
  · exact undisturbed_refuse _ _
  · exact undisturbed_refuse _ _
  · split
    · exact undisturbed_of_port rfl
    · exact undisturbed_of_result nofun

theorem undisturbed_connectSlot (w : PortState) (env : IoEnv) (d : Fin okmMaxDesc)
    (slot : Fin okmMaxSock) (addr : Option Bytes) (len : ℕ) :
    (w.connectSlot env d slot addr len).Undisturbed w := by
  unfold connectSlot
  simp only
  split
  · exact undisturbed_refuse _ _
  · split_ifs
    · exact undisturbed_refuse _ _
    · exact undisturbed_withDatagram fun _ _ _ => nofun
    · exact undisturbed_refuse _ _
    · exact undisturbed_refuse _ _
    · exact undisturbed_refuse _ _
    · split
      · exact undisturbed_of_port rfl
      · exact undisturbed_of_result nofun

theorem undisturbed_sendSlot (w : PortState) (env : IoEnv) (d : Fin okmMaxDesc)
    (slot : Fin okmMaxSock) (len flags : ℕ) (addr : Option Bytes) (alen : ℕ) :
    (w.sendSlot env d slot len flags addr alen).Undisturbed w := by
  have hsent : ∀ (v : PortState) obtained (r : Except Errno ℕ) f,
      (v.sent obtained r).result = .error f → f.beforehand = false := by
    rintro v obtained (e | n) f hf
    · cases hf
      rfl
    · cases hf
  unfold sendSlot
  simp only
  split_ifs
  · exact undisturbed_refuse _ _
  · exact undisturbed_refuse _ _
  · split
    · exact undisturbed_refuse _ _
    · exact undisturbed_withDatagram fun v obtained => hsent v obtained _
  · exact undisturbed_refuse _ _
  · exact undisturbed_refuse _ _
  · exact undisturbed_of_result (hsent _ _ _)
  · exact undisturbed_of_result (hsent _ _ _)

theorem undisturbed_nameSlot (w : PortState) (env : IoEnv) (slot : Fin okmMaxSock)
    (peer out : Bool) : (w.nameSlot env slot peer out).Undisturbed w := by
  unfold nameSlot
  split_ifs
  · exact undisturbed_refuse _ _
  · split
    · exact undisturbed_refuse _ _
    · split <;> exact undisturbed_of_port rfl

theorem undisturbed_setoptSlot (w : PortState) (env : IoEnv) (slot : Fin okmMaxSock)
    (level opt : Int) (time : Option (Int × Int)) :
    (w.setoptSlot env slot level opt time).Undisturbed w := by
  unfold setoptSlot
  simp only
  split_ifs
  · exact undisturbed_refuse _ _
  · exact undisturbed_of_port rfl
  · exact undisturbed_refuse _ _
  · exact undisturbed_refuse _ _
  · exact undisturbed_of_result nofun
  · exact undisturbed_of_result nofun
  · exact undisturbed_refuse _ _

/-- A stream's `recv` is not refused: what fails is the transfer. -/
theorem undisturbed_recvStream (w : PortState) (env : IoEnv) (d : Fin okmMaxDesc)
    (slot : Fin okmMaxSock) (len flags : ℕ) :
    (w.recvStream env d slot len flags).Undisturbed w := by
  unfold recvStream
  split <;> exact undisturbed_gave _ _ _

/-- On a datagram socket that is open, `recv` is refused without a trace. -/
theorem undisturbed_recvDatagram (w : PortState) (env : IoEnv) (d : Fin okmMaxDesc)
    (slot : Fin okmMaxSock) (len flags : ℕ) :
    (w.recvDatagram env d slot len flags []).Undisturbed w := by
  unfold recvDatagram
  simp only
  split_ifs
  · exact undisturbed_of_result nofun
  · split
    · exact undisturbed_of_port rfl
    · exact undisturbed_received _ _ _ _ _
  · exact undisturbed_received _ _ _ _ _

/-- A datagram socket that was opened is seen to be open. -/
theorem not_asBefore_becomeDatagram {w : PortState} {slot : Fin okmMaxSock}
    (hnew : (w.sock slot).state = .new) (h : Handle) : ¬ AsBefore w (w.becomeDatagram slot h) := by
  intro has
  have := has.state slot
  rw [becomeDatagram, setSlot_sock, hnew] at this
  cases this

theorem undisturbed_recvSlot_iff (w : PortState) (env : IoEnv) (d : Fin okmMaxDesc)
    (slot : Fin okmMaxSock) (len flags : ℕ) :
    (w.recvSlot env d slot len flags).Undisturbed w ↔ ¬ w.RecvLeaves env d slot flags := by
  unfold recvSlot RecvLeaves
  simp only
  by_cases hf : otherFlags flags (msgNosignal ||| msgDontwait) = 0
  · simp only [hf, ne_eq, not_true_eq_false, if_false, true_and]
    by_cases ht : (w.sock slot).type = sockDgram
    · simp only [ht, if_true, true_and]
      by_cases hdg : env.haveDgram = true
      · simp only [hdg, Bool.true_eq_false, if_false, true_and]
        unfold withDatagram
        by_cases hnew : (w.sock slot).state = .new
        · simp only [hnew, if_true, true_and]
          cases hopen : env.datagramOpen with
          | error e =>
            refine iff_of_true (undisturbed_of_port rfl) ?_
            rintro ⟨-, ⟨h, hh⟩, -⟩
            cases hh
          | ok h =>
            -- the socket is open now, whatever the receive answers
            have hopened : (w.becomeDatagram slot h).sock slot =
                { w.sock slot with dg := h, state := .dgram } := setSlot_sock ..
            simp only [Except.ok.injEq, exists_eq', true_and, recvDatagram, hopened]
            have hbound : boundOf ((w.becomeDatagram slot h).desc d)
                { w.sock slot with dg := h, state := .dgram } flags true =
                boundOf (w.desc d) (w.sock slot) flags true := rfl
            rw [hbound]
            by_cases hp : (w.sock slot).pendMsg = true
            · simp only [hp, if_true, Bool.true_eq_false, false_and, not_false_eq_true, iff_true]
              exact undisturbed_of_result nofun
            · have hp' : (w.sock slot).pendMsg = false := by simpa using hp
              simp only [hp', Bool.false_eq_true, if_false, true_and]
              by_cases hns : boundOf (w.desc d) (w.sock slot) flags true = 0
              · simp only [hns, ne_eq, not_true_eq_false, if_false, false_and, not_false_eq_true,
                  iff_true]
                exact undisturbed_received _ _ _ _ _
              · simp only [hns, ne_eq, not_false_eq_true, if_true, true_and]
                cases hr : env.timeoutRecvFrom with
                | none =>
                  simp only [not_true_eq_false, iff_false]
                  rw [undisturbed_failed rfl rfl]
                  exact not_asBefore_becomeDatagram hnew h
                | some recv =>
                  refine iff_of_true (undisturbed_received _ _ _ _ _) nofun
        · simp only [hnew, if_false, false_and, not_false_eq_true, iff_true]
          exact undisturbed_recvDatagram w env d slot len flags
      · simp [hdg, undisturbed_refuse]
    · simp only [ht, if_false, false_and, and_false, not_false_eq_true, iff_true]
      split_ifs
      · exact undisturbed_recvStream w env d slot len flags
      · exact undisturbed_refuse _ _
  · simp [hf, undisturbed_refuse]

/-- What is shown of the part that has a slot holds of the call. -/
theorem undisturbed_onSocket_iff {w : PortState} {fd : Int}
    {k : Fin okmMaxDesc → Fin okmMaxSock → SockOutcome} {P : Fin okmMaxDesc → Fin okmMaxSock → Prop}
    (hk : ∀ d slot, (k d slot).Undisturbed w ↔ ¬ P d slot) :
    (w.onSocket fd k).Undisturbed w ↔
      ¬ ∃ d slot, w.okmDescOf fd = some d ∧ w.sockOf d = some slot ∧ P d slot := by
  rcases onSocket_cases w fd k with ⟨e, he, hno⟩ | ⟨d, slot, hd, hs, he⟩
  · rw [he]
    refine iff_of_true (undisturbed_refuse w e) ?_
    rintro ⟨d, slot, hd, hs, -⟩
    exact hno d slot hd hs
  · rw [he, exists_slot_iff hd hs]
    exact hk d slot

theorem undisturbed_onSocket {w : PortState} {fd : Int}
    {k : Fin okmMaxDesc → Fin okmMaxSock → SockOutcome}
    (hk : ∀ d slot, (k d slot).Undisturbed w) : (w.onSocket fd k).Undisturbed w := by
  rcases onSocket_cases w fd k with ⟨e, he, -⟩ | ⟨d, slot, -, -, he⟩
  · rw [he]
    exact undisturbed_refuse w e
  · rw [he]
    exact hk d slot

end PortState

/-- **When a refused call leaves the socket as it was**: exactly when it is no `bind` of a datagram
socket that cannot be opened there, and no `recv` that opens one and cannot be bounded. -/
theorem undisturbed_iff (env : IoEnv) (w : PortState) (fd : Int) (call : SockCall) :
    (call.run env w fd).Undisturbed w ↔ ¬ call.Leaves env w fd := by
  cases call with
  | bind addr len =>
    exact undisturbed_onSocket_iff fun _ slot => undisturbed_bindSlot_iff w env slot addr len
  | recv len flags =>
    exact undisturbed_onSocket_iff fun d slot => undisturbed_recvSlot_iff w env d slot len flags
  | listen =>
    exact iff_of_true (undisturbed_onSocket fun _ slot => undisturbed_listenSlot w env slot) nofun
  | connect addr len =>
    refine iff_of_true (undisturbed_onSocket fun d slot => ?_) nofun
    exact undisturbed_connectSlot w env d slot addr len
  | send len flags addr alen =>
    refine iff_of_true (undisturbed_onSocket fun d slot => ?_) nofun
    exact undisturbed_sendSlot w env d slot len flags addr alen
  | name peer out =>
    refine iff_of_true (undisturbed_onSocket fun _ slot => ?_) nofun
    exact undisturbed_nameSlot w env slot peer out
  | setopt level opt time =>
    refine iff_of_true (undisturbed_onSocket fun _ slot => ?_) nofun
    exact undisturbed_setoptSlot w env slot level opt time

/-- An environment whose operations have nothing to give, and whose bounded operations expire. -/
def IoEnv.idle : IoEnv where
  timeoutRead := some fun _ => .error .again
  streamRead := .ok []
  timeoutWrite := some fun _ => .error .again
  streamWrite := .ok 0
  haveNet := true
  haveDgram := true
  netListen := .error .permission
  netConnect := .error .permission
  connStream := 0
  timeoutAccept := some fun _ => .error .again
  datagramOpen := .error .permission
  sendTo := .error .permission
  recvFrom := .error .io
  timeoutRecvFrom := some fun _ => .error .again
  netPeer := .error .invalid
  netLocal := .error .invalid
  listenerLocal := .error .invalid
  datagramLocal := .error .invalid
  malloc := true

/-- The loopback address with port 80, in a `sockaddr_in` and as an endpoint. -/
def loopback : Bytes := fun i => [2, 0, 0, 80, 127, 0, 0, 1].getD i 0

def loopbackEnd : Endpoint where
  addr := [127, 0, 0, 1] ++ List.replicate 16 0
  addrLen := 4
  port := 80

/-- A table with one datagram socket, which is descriptor 3. -/
def datagramTable : PortState :=
  ((PortState.okmTableInit 1 .supplied).okmSockOpen 1 .granting afInet sockDgram 0).port

/-- **A `bind` that fails and is remembered**: the datagram socket cannot be opened at the endpoint,
and `getsockname`, which would have answered that there is none, answers with it. -/
theorem bind_leaves_endpoint :
    ((SockCall.bind (some loopback) 16).run .idle datagramTable 3).result =
        .error (.undone .eacces) ∧
      ((SockCall.name false true).run .idle datagramTable 3).result = .error (.refused .einval) ∧
      ((SockCall.name false true).run .idle
        ((SockCall.bind (some loopback) 16).run .idle datagramTable 3).port 3).result =
          .ok { endpoint := some loopbackEnd } ∧
      ¬ ((SockCall.bind (some loopback) 16).run .idle datagramTable 3).Undisturbed
        datagramTable := by
  have hfail : ((SockCall.bind (some loopback) 16).run .idle datagramTable 3).result =
      .error (.undone .eacces) := by decide +kernel
  have hbefore : ((SockCall.name false true).run .idle datagramTable 3).result =
      .error (.refused .einval) := by decide +kernel
  have hafter : ((SockCall.name false true).run .idle
      ((SockCall.bind (some loopback) 16).run .idle datagramTable 3).port 3).result =
        .ok { endpoint := some loopbackEnd } := by decide +kernel
  refine ⟨hfail, hbefore, hafter, fun hundisturbed => ?_⟩
  have hsame := (hundisturbed _ hfail rfl).answers .idle 3 (.name false true)
  rw [hafter, hbefore] at hsame
  cases hsame

end OpenkalMusl
