import OpenkalMusl.Input.Poll

/-!
# The socket table and what its slots hold

A socket is a description of the descriptor table and a slot of the socket table. The slot's state
says which openkal object the socket holds, and a listener may hold one connection besides, which a
readiness enquiry accepted. The two tables agree after every call: a slot that is in use is named by
one socket's description, and a connection's stream is the description's.

Each object that the environment made is held by one slot, or was closed once: with the last
descriptor of the socket that held it, or by an `accept` that had no descriptor or no slot for a
connection.

## Main definitions

* `Net.step`: the calls on sockets, with the objects obtained and closed
* `Net.Shape`, `Net.Rep`: the two tables agree, and each object has one slot

## Main results

* `rep_of_reachable`: the representation holds after every call, and what a call closes was held by
  the last descriptor of its socket, or could not be placed
-/

namespace OpenkalMusl

open Transition Occupancy PortState

/-- The objects of the network. -/
def Resource.net : Resource → Option Resource
  | .conn h => some (.conn h)
  | .listener h => some (.listener h)
  | .datagram h => some (.datagram h)
  | _ => none

/-- The table, the history of the objects of the network, and the stream of each connection. -/
structure Net extends Ledger Resource where
  streams : Handle → Handle

inductive NetCall where
  | socket (env : Env) (domain : Int) (type : ℕ) (protocol : Int)
  /-- `accept4`, and `accept` where there are no flags. -/
  | accept (env : Env) (fd : Int) (flags : ℕ)
  | sock (env : IoEnv) (fd : Int) (call : SockCall)
  | poll (fds : Option (List PollFd)) (timeoutMs : Int) (rounds : List (ℕ → IoEnv))
  | select (nfds : Int) (rd wr : Option (ℕ → Bool)) (timeoutMs : Int) (rounds : List (ℕ → IoEnv))
  | dup (fd newfd : Int) (cloexec : Bool)
  | close (fd : Int)

namespace PortState

/-- The connection that waits at the listener a descriptor names. -/
def pendingOf (w : PortState) (fd : Int) : Option Handle :=
  ((w.okmDescOf fd).bind w.sockOf).bind fun slot =>
    if (w.sock slot).pendConn then some (w.sock slot).pend else none

/-- The connection that an `accept` has to place: the one that waits, or the one that the
environment gives it. -/
def atHand (w : PortState) (env : Env) (fd : Int) (flags : ℕ) : Option Handle :=
  (w.okmDescOf fd).bind fun d => (w.sockOf d).bind fun slot =>
    if (w.sock slot).state ≠ .listen ∨ otherFlags flags (sockCloexec ||| sockNonblock) ≠ 0 ∨
        (hasFlag flags sockNonblock && !env.canBound) = true then none
    else if (w.sock slot).pendConn then some (w.sock slot).pend
    else if hasFlag (w.desc d).flags oNonblock then env.timeoutAccept.bind Except.toOption
    else env.netAccept.toOption

end PortState

namespace Net

/-- The state a call leaves: what it obtained, with the stream of a connection, and what
it closed. -/
def after (s : Net) (w : PortState) (obtained : List Resource) (stream : Handle) : Net where
  toLedger := s.toLedger.after Resource.net w obtained
  streams := fun c => if .conn c ∈ obtained then stream else s.streams c

/-- The environment gives what is not held. -/
def Fresh (s : Net) (obtained : List Resource) : Prop := ∀ r ∈ obtained, r ∉ s.held

instance (s : Net) (obtained : List Resource) : Decidable (s.Fresh obtained) :=
  inferInstanceAs (Decidable (∀ r ∈ obtained, r ∉ s.held))

/-- An enquiry. -/
def enquire (s : Net) (a : Asked) : Option Net :=
  let q := s.port.waitIn a.env a.d a.ns
  if s.Fresh q.obtained then some (s.after q.port q.obtained a.env.connStream) else none

/-- What an `accept` obtains of the environment: a connection that waits was obtained before. -/
def acceptObtains (s : Net) (me : Context) (env : Env) (fd : Int) (flags : ℕ) : List Resource :=
  if s.port.pendingOf fd = none then (s.port.okmSockAccept me env fd flags).obtained else []

/-- One call. The stream of a connection that waits is the one it had when it was accepted. -/
def step (me : Context) (s : Net) : NetCall → Option Net
  | .socket env domain type protocol =>
    some (s.after (s.port.okmSockOpen me env domain type protocol).port [] 0)
  | .accept env fd flags =>
    if s.Fresh (s.acceptObtains me env fd flags) ∧
        ∀ c ∈ s.port.pendingOf fd, env.connStream = s.streams c then
      some (s.after (s.port.okmSockAccept me env fd flags).port
        (s.acceptObtains me env fd flags) env.connStream)
    else none
  | .sock env fd call =>
    let o := call.run env s.port fd
    if s.Fresh o.obtained then some (s.after o.port o.obtained env.connStream) else none
  | .poll fds timeoutMs rounds => run enquire s (s.port.okmPoll fds timeoutMs rounds).asked
  | .select nfds rd wr timeoutMs rounds =>
    run enquire s (s.port.okmSelect nfds rd wr timeoutMs rounds).asked
  | .dup fd newfd cloexec => some (s.after (s.port.doDup me fd newfd cloexec).port [] 0)
  | .close fd => some (s.after (s.port.doClose me fd).port [] 0)

/-- A table between two calls, with no socket. -/
structure Bare (w : PortState) : Prop where
  exact : w.Exact
  settled : w.settling = []
  desc : ∀ d, (w.desc d).kind ≠ .socket
  slot : ∀ slot, (w.sock slot).state = .free ∧ (w.sock slot).pendConn = false ∧
    (w.sock slot).pendMsg = false

/-- A table without sockets, of which nothing is held. -/
def start (w : PortState) : Net where
  port := w
  hist := []
  streams := fun _ => 0

end Net

/-- What a readiness enquiry keeps is kept for the state that gives it. -/
structure Sock.Apt (s : Sock) : Prop where
  pendConn : s.pendConn = true → s.state = .listen
  pendMsg : s.pendMsg = true → s.state = .dgram

namespace Net

/-- The two tables agree: a slot in use is named by one description, a socket's description names a
slot in use, and a connection's stream is the description's; and what a readiness enquiry keeps is
kept for the state that gives it. -/
structure Shape (streams : Handle → Handle) (w : PortState) : Prop where
  named : ∀ slot, (w.sock slot).state ≠ .free → ∃! d, w.sockOf d = some slot
  live : ∀ d, (w.desc d).kind = .socket → ∃ slot, w.sockOf d = some slot
  used : ∀ d slot, w.sockOf d = some slot → (w.sock slot).state ≠ .free
  stream : ∀ d slot, w.sockOf d = some slot → (w.sock slot).state = .conn →
    (w.desc d).stream = streams (w.sock slot).conn
  apt : ∀ slot, (w.sock slot).Apt

/-- The slot holds the object. -/
def Holds (w : PortState) (slot : Fin okmMaxSock) (r : Resource) : Prop := r ∈ (w.sock slot).holds

/-- **The representation**: the tables agree, and each object that was obtained is held by one slot
or was closed, once. -/
structure Rep (s : Net) : Prop where
  exact : s.port.Exact
  settled : s.port.settling = []
  shape : Shape s.streams s.port
  owned : Owned (Holds s.port) s.hist

end Net

/-! ## What a call does to one slot -/

/-- The slot holds what it held; a message is kept only where one can be. -/
structure SameObject (s s' : Sock) : Prop where
  state : s'.state = s.state
  conn : s'.conn = s.conn
  lis : s'.lis = s.lis
  dg : s'.dg = s.dg
  pendConn : s'.pendConn = s.pendConn
  pend : s'.pend = s.pend
  pendMsg : s'.pendMsg = true → s.pendMsg = true ∨ s.state = .dgram

/-- The slot holds one object more: its own, or a connection that waits, where the call
`enquires`. -/
inductive Gains (enquires : Prop) (s s' : Sock) : Resource → Prop
  | datagram (new : s.state = .new) (state : s'.state = .dgram)
    (pendConn : s'.pendConn = s.pendConn) : Gains enquires s s' (.datagram s'.dg)
  | listener (new : s.state = .new) (state : s'.state = .listen)
    (pendConn : s'.pendConn = s.pendConn) (pendMsg : s'.pendMsg = s.pendMsg) :
    Gains enquires s s' (.listener s'.lis)
  | conn (new : s.state = .new) (state : s'.state = .conn) (pendConn : s'.pendConn = s.pendConn)
    (pendMsg : s'.pendMsg = s.pendMsg) : Gains enquires s s' (.conn s'.conn)
  | pending (asked : enquires) (listen : s.state = .listen) (none_ : s.pendConn = false)
    (state : s'.state = .listen) (lis : s'.lis = s.lis) (pendConn : s'.pendConn = true)
    (pendMsg : s'.pendMsg = s.pendMsg) : Gains enquires s s' (.conn s'.pend)

namespace SameObject

variable {s s' s'' : Sock}

theorem refl (s : Sock) : SameObject s s := ⟨rfl, rfl, rfl, rfl, rfl, rfl, Or.inl⟩

theorem trans (h : SameObject s s') (h' : SameObject s' s'') : SameObject s s'' where
  state := h'.state.trans h.state
  conn := h'.conn.trans h.conn
  lis := h'.lis.trans h.lis
  dg := h'.dg.trans h.dg
  pendConn := h'.pendConn.trans h.pendConn
  pend := h'.pend.trans h.pend
  pendMsg := by
    intro hm
    rcases h'.pendMsg hm with hm' | hm'
    · exact h.pendMsg hm'
    · exact Or.inr (h.state.symm.trans hm')

theorem holds (h : SameObject s s') : s'.holds = s.holds := by
  unfold Sock.holds
  rw [h.state, h.conn, h.lis, h.dg, h.pendConn, h.pend]

theorem apt (h : SameObject s s') (ha : s.Apt) : s'.Apt where
  pendConn := by
    rw [h.pendConn, h.state]
    exact ha.pendConn
  pendMsg := by
    intro hm
    rw [h.state]
    exact (h.pendMsg hm).elim ha.pendMsg id

end SameObject

namespace Gains

variable {enquires : Prop} {s s' s'' : Sock} {r : Resource}

/-- What is done to the slot afterwards does not matter, as long as it holds what it holds. -/
theorem andThen (h : Gains enquires s s' r) (hs : s.Apt) (h' : SameObject s' s'') :
    Gains enquires s s'' r := by
  have hnone : s.state ≠ .dgram → s'.state ≠ .dgram → s'.pendMsg = s.pendMsg →
      s''.pendMsg = s.pendMsg := by
    intro hd hd' hsame
    have hno : s.pendMsg = false := by
      rw [Bool.eq_false_iff]
      exact fun hm => hd (hs.pendMsg hm)
    rw [hno, Bool.eq_false_iff]
    intro hm
    rcases h'.pendMsg hm with hm' | hm'
    · rw [hsame, hno] at hm'
      cases hm'
    · exact hd' hm'
  cases h with
  | datagram new state pendConn =>
    rw [← h'.dg]
    exact .datagram new (h'.state.trans state) (h'.pendConn.trans pendConn)
  | listener new state pendConn pendMsg =>
    rw [← h'.lis]
    exact .listener new (h'.state.trans state) (h'.pendConn.trans pendConn)
      (hnone (by simp [new]) (by simp [state]) pendMsg)
  | conn new state pendConn pendMsg =>
    rw [← h'.conn]
    exact .conn new (h'.state.trans state) (h'.pendConn.trans pendConn)
      (hnone (by simp [new]) (by simp [state]) pendMsg)
  | pending asked listen none_ state lis pendConn pendMsg =>
    rw [← h'.pend]
    exact .pending asked listen none_ (h'.state.trans state) (h'.lis.trans lis)
      (h'.pendConn.trans pendConn) (hnone (by simp [listen]) (by simp [state]) pendMsg)

theorem ne_free (h : Gains enquires s s' r) : s'.state ≠ .free := by
  cases h <;> simp_all

theorem pendConn_of_new (hs : s.Apt) (new : s.state = .new) : s.pendConn = false := by
  rw [Bool.eq_false_iff]
  intro hp
  rw [hs.pendConn hp] at new
  cases new

theorem pendMsg_of_ne (hs : s.Apt) (h : s.state ≠ .dgram) : s.pendMsg = false := by
  rw [Bool.eq_false_iff]
  exact fun hm => h (hs.pendMsg hm)

theorem apt (h : Gains enquires s s' r) (hs : s.Apt) : s'.Apt := by
  cases h with
  | datagram new state pendConn =>
    rw [pendConn_of_new hs new] at pendConn
    exact ⟨by simp [pendConn], fun _ => state⟩
  | listener new state pendConn pendMsg =>
    rw [pendMsg_of_ne hs (by simp [new])] at pendMsg
    exact ⟨fun _ => state, by simp [pendMsg]⟩
  | conn new state pendConn pendMsg =>
    rw [pendConn_of_new hs new] at pendConn
    rw [pendMsg_of_ne hs (by simp [new])] at pendMsg
    exact ⟨by simp [pendConn], by simp [pendMsg]⟩
  | pending asked listen none_ state lis pendConn pendMsg =>
    rw [pendMsg_of_ne hs (by simp [listen])] at pendMsg
    exact ⟨fun _ => state, by simp [pendMsg]⟩

/-- **What the slot holds afterwards.** -/
theorem mem_holds (h : Gains enquires s s' r) (hs : s.Apt) (x : Resource) :
    x ∈ s'.holds ↔ x ∈ s.holds ∨ x = r := by
  unfold Sock.holds
  cases h with
  | datagram new state pendConn => simp [new, state, pendConn, pendConn_of_new hs new]
  | listener new state pendConn pendMsg => simp [new, state, pendConn, pendConn_of_new hs new]
  | conn new state pendConn pendMsg => simp [new, state, pendConn, pendConn_of_new hs new]
  | pending asked listen none_ state lis pendConn pendMsg =>
    simp [listen, none_, state, lis, pendConn]

end Gains

namespace Net

/-! ## The tables after a call -/

/-- The descriptions are as they were, as far as sockets go. -/
structure SameDescs (w v : PortState) : Prop where
  kind : ∀ e, (v.desc e).kind = (w.desc e).kind
  sock : ∀ e, (v.desc e).sock = (w.desc e).sock

theorem SameDescs.sockOf {w v : PortState} (h : SameDescs w v) (e : Fin okmMaxDesc) :
    v.sockOf e = w.sockOf e := by
  rw [PortState.sockOf, PortState.sockOf, h.kind, h.sock]

/-- The tables hold what they held. -/
structure Still (w v : PortState) : Prop where
  descs : SameDescs w v
  streams : ∀ e, (v.desc e).stream = (w.desc e).stream
  slots : ∀ slot, SameObject (w.sock slot) (v.sock slot)

theorem Still.refl (w : PortState) : Still w w :=
  ⟨⟨fun _ => rfl, fun _ => rfl⟩, fun _ => rfl, fun _ => .refl _⟩

theorem Still.trans {w v u : PortState} (h : Still w v) (h' : Still v u) : Still w u where
  descs := ⟨fun e => (h'.descs.kind e).trans (h.descs.kind e),
    fun e => (h'.descs.sock e).trans (h.descs.sock e)⟩
  streams := fun e => (h'.streams e).trans (h.streams e)
  slots := fun slot => (h.slots slot).trans (h'.slots slot)

theorem Still.setFd (w : PortState) (f : Fin okmMaxFd) (s : FdSlot) : Still w (w.setFd f s) :=
  ⟨⟨fun _ => rfl, fun _ => rfl⟩, fun _ => rfl, fun _ => .refl _⟩

/-- A slot holds one object more; `stream` is that of the connection, where the object is one that
the socket itself has. -/
structure Gained (enquires : Prop) (stream : Handle) (w v : PortState) (r : Resource)
    (d : Fin okmMaxDesc) (slot : Fin okmMaxSock) : Prop where
  descs : SameDescs w v
  streams : ∀ e, e ≠ d → (v.desc e).stream = (w.desc e).stream
  stream : (v.sock slot).state = .conn → (v.desc d).stream = stream
  slots : ∀ e, e ≠ slot → SameObject (w.sock e) (v.sock e)
  named : w.sockOf d = some slot
  gains : Gains enquires (w.sock slot) (v.sock slot) r

/-- What a call on a socket, or an enquiry, can do to the tables. -/
inductive Touched (enquires : Prop) (stream : Handle) (w v : PortState) : List Resource → Prop
  | still (h : Still w v) : Touched enquires stream w v []
  | gained {r : Resource} (d : Fin okmMaxDesc) (slot : Fin okmMaxSock)
    (h : Gained enquires stream w v r d slot) : Touched enquires stream w v [r]

/-- A field of a description that is written with what was there. -/
theorem setDesc_congr {w : PortState} {d : Fin okmMaxDesc} {p : Desc} {β : Type*} (f : Desc → β)
    (hf : f p = f (w.desc d)) (e : Fin okmMaxDesc) :
    f ((w.setDesc d p).desc e) = f (w.desc e) := by
  rw [setDesc_desc]
  rcases eq_or_ne e d with rfl | hne
  · rw [Function.update_self, hf]
  · rw [Function.update_of_ne hne]

theorem Still.setDesc {w : PortState} {d : Fin okmMaxDesc} {p : Desc}
    (hkind : p.kind = (w.desc d).kind) (hsock : p.sock = (w.desc d).sock)
    (hstream : p.stream = (w.desc d).stream) : Still w (w.setDesc d p) :=
  ⟨⟨setDesc_congr Desc.kind hkind, setDesc_congr Desc.sock hsock⟩,
    setDesc_congr Desc.stream hstream, fun _ => .refl _⟩

/-- The tables agree still where states, connections and streams are as they were. -/
theorem Shape.congr {streams streams' : Handle → Handle} {w v : PortState} (h : Shape streams w)
    (hdescs : SameDescs w v) (hstream : ∀ e, (v.desc e).stream = (w.desc e).stream)
    (hstate : ∀ e, (v.sock e).state = (w.sock e).state)
    (hconn : ∀ e, (v.sock e).conn = (w.sock e).conn)
    (hstreams : ∀ e, (w.sock e).state = .conn → streams' (w.sock e).conn = streams (w.sock e).conn)
    (hapt : ∀ e, (v.sock e).Apt) : Shape streams' v where
  named := by
    intro slot hslot
    rw [hstate] at hslot
    simp only [hdescs.sockOf]
    exact h.named slot hslot
  live := by
    intro d hd
    rw [hdescs.kind] at hd
    rw [hdescs.sockOf]
    exact h.live d hd
  used := by
    intro d slot hd
    rw [hdescs.sockOf] at hd
    rw [hstate]
    exact h.used d slot hd
  stream := by
    intro d slot hd hc
    rw [hdescs.sockOf] at hd
    rw [hstate] at hc
    rw [hstream, hconn, hstreams slot hc]
    exact h.stream d slot hd hc
  apt := hapt

theorem Shape.still {streams : Handle → Handle} {w v : PortState} (h : Shape streams w)
    (hs : Still w v) : Shape streams v :=
  h.congr hs.descs hs.streams (fun e => (hs.slots e).state) (fun e => (hs.slots e).conn)
    (fun _ _ => rfl) fun e => (hs.slots e).apt (h.apt e)

/-- A connection that a socket has is held. -/
theorem mem_holds_conn {s : Sock} (h : s.state = .conn) : .conn s.conn ∈ s.holds := by
  unfold Sock.holds
  simp [h]

/-- The streams of the connections, where `r` was obtained. -/
def streamsWith (streams : Handle → Handle) (r : Resource) (stream : Handle) : Handle → Handle :=
  fun c => if .conn c = r then stream else streams c

theorem Shape.gained {streams : Handle → Handle} {w v : PortState} (h : Shape streams w)
    {enquires : Prop} {stream : Handle} {r : Resource} {d : Fin okmMaxDesc} {slot : Fin okmMaxSock}
    (hg : Gained enquires stream w v r d slot) (hfresh : ∀ e, ¬ Holds w e r) :
    Shape (streamsWith streams r stream) v where
  named := by
    intro e he
    simp only [hg.descs.sockOf]
    rcases eq_or_ne e slot with rfl | hne
    · exact h.named e (h.used d e hg.named)
    · rw [(hg.slots e hne).state] at he
      exact h.named e he
  live := by
    intro e he
    rw [hg.descs.kind] at he
    rw [hg.descs.sockOf]
    exact h.live e he
  used := by
    intro e slot' he
    rw [hg.descs.sockOf] at he
    rcases eq_or_ne slot' slot with rfl | hne
    · exact hg.gains.ne_free
    · rw [(hg.slots slot' hne).state]
      exact h.used e slot' he
  stream := by
    intro e slot' he hconn
    rw [hg.descs.sockOf] at he
    rcases eq_or_ne slot' slot with rfl | hne
    · -- the socket's own connection is the one that was obtained
      obtain rfl : e = d := (h.named slot' (h.used e slot' he)).unique he hg.named
      have hr : .conn (v.sock slot').conn = r := by
        have hgains := hg.gains
        generalize v.sock slot' = s' at hgains hconn
        cases hgains <;> simp_all
      rw [hg.stream hconn, streamsWith, if_pos hr]
    · rw [(hg.slots slot' hne).state] at hconn
      have hed : e ≠ d := by
        rintro rfl
        exact hne (Option.some.inj (he.symm.trans hg.named))
      have hr : .conn (w.sock slot').conn ≠ r := by
        rintro rfl
        exact hfresh slot' (mem_holds_conn hconn)
      rw [hg.streams e hed, (hg.slots slot' hne).conn, streamsWith, if_neg hr]
      exact h.stream e slot' he hconn
  apt := by
    intro e
    rcases eq_or_ne e slot with rfl | hne
    · exact hg.gains.apt (h.apt e)
    · exact (hg.slots e hne).apt (h.apt e)

/-- What the slots hold after one object more was obtained. -/
theorem Gained.holds_iff {enquires : Prop} {stream : Handle} {w v : PortState} {r : Resource}
    {d : Fin okmMaxDesc} {slot : Fin okmMaxSock} (hg : Gained enquires stream w v r d slot)
    (hs : (w.sock slot).Apt)
    (e : Fin okmMaxSock) (x : Resource) : Holds v e x ↔ Holds w e x ∨ e = slot ∧ x = r := by
  unfold Holds
  rcases eq_or_ne e slot with rfl | hne
  · rw [hg.gains.mem_holds hs]
    simp
  · rw [(hg.slots e hne).holds]
    simp [hne]

/-! ## The history of a call -/

theorem net_of_gains {enquires : Prop} {s s' : Sock} {r : Resource} (h : Gains enquires s s' r) :
    Resource.net r = some r := by
  cases h <;> rfl

theorem after_hist {s : Net} {w : PortState} {es : List Event} (h : w.log = s.port.log ++ es)
    (obtained : List Resource) (stream : Handle) :
    (s.after w obtained stream).hist = s.hist ++ (obtained.filterMap Resource.net).map .got ++
      ((es.filterMap Event.released).filterMap Resource.net).map .gave :=
  Ledger.after_of_log h obtained

/-- A call that leaves the tables as they were, but for the descriptors. -/
theorem Rep.still {s : Net} (h : Rep s) {v : PortState} (hs : Still s.port v) (hexact : v.Exact)
    (hsettled : v.settling = []) (hlog : v.log = s.port.log) (stream : Handle) :
    Rep (s.after v [] stream) ∧ (s.after v [] stream).hist = s.hist := by
  have hsame : (s.after v [] stream).hist = s.hist := by
    have hnone : v.log = s.port.log ++ [] := by rw [hlog, List.append_nil]
    simpa using after_hist hnone [] stream
  refine ⟨⟨hexact, hsettled, h.shape.still hs, ?_⟩, hsame⟩
  rw [hsame]
  refine h.owned.congr fun slot r => ?_
  show r ∈ (v.sock slot).holds ↔ r ∈ (s.port.sock slot).holds
  rw [(hs.slots slot).holds]

/-- A call that takes no descriptor and releases none. -/
structure Mild (enquires : Prop) (stream : Handle) (w v : PortState) (obtained : List Resource) :
    Prop where
  fd : v.fd = w.fd
  refs : ∀ e, (v.desc e).refs = (w.desc e).refs
  settling : v.settling = w.settling
  log : v.log = w.log
  touched : Touched enquires stream w v obtained

/-- **A call that touches one slot** keeps the representation. -/
theorem Rep.mild {s : Net} (h : Rep s) {v : PortState} {obtained : List Resource}
    {enquires : Prop} {stream : Handle} (hm : Mild enquires stream s.port v obtained)
    (hfresh : s.Fresh obtained) :
    Rep (s.after v obtained stream) := by
  have hlog : v.log = s.port.log ++ [] := by rw [hm.log, List.append_nil]
  have hhist := after_hist hlog obtained stream
  have hexact : SameDescs s.port v → v.Exact := fun hd =>
    h.exact.congr (named_congr hm.fd) hm.refs hd.kind
  have hsettled : v.settling = [] := hm.settling.trans h.settled
  cases hm.touched with
  | still hs => exact (h.still hs (hexact hs.descs) hsettled hm.log stream).1
  | @gained r d slot hg =>
    have hr : r ∉ s.held := hfresh r (List.mem_singleton_self r)
    have hgot : (s.after v [r] stream).hist = s.hist ++ [.got r] := by
      simpa [net_of_gains hg.gains] using hhist
    refine ⟨hexact hg.descs, hsettled, ?_, ?_⟩
    · have hshape := h.shape.gained hg fun e he => hr (h.owned.held e r he)
      have hstreams : (s.after v [r] stream).streams = streamsWith s.streams r stream := by
        funext c
        simp [after, streamsWith]
      rw [hstreams]
      exact hshape
    · rw [hgot]
      exact h.owned.grant hr (hg.holds_iff (h.shape.apt slot))

theorem setSlot_of_ne (w : PortState) {slot e : Fin okmMaxSock} (h : e ≠ slot) (s' : Sock) :
    (w.setSlot slot s').sock e = w.sock e := Function.update_of_ne h _ _

namespace Mild

variable {enquires : Prop} {stream : Handle} {w v : PortState}

theorem refl (enquires : Prop) (stream : Handle) (w : PortState) : Mild enquires stream w w [] :=
  ⟨rfl, fun _ => rfl, rfl, rfl, .still (.refl w)⟩

/-- A slot changed, and not in what it holds. -/
theorem slot (stream : Handle) {slot : Fin okmMaxSock} {s' : Sock}
    (h : SameObject (w.sock slot) s') : Mild enquires stream w (w.setSlot slot s') [] := by
  refine ⟨rfl, fun _ => rfl, rfl, rfl, .still ⟨⟨fun _ => rfl, fun _ => rfl⟩, fun _ => rfl, ?_⟩⟩
  intro e
  rcases eq_or_ne e slot with rfl | hne
  · rw [setSlot_sock]
    exact h
  · rw [setSlot_of_ne w hne]
    exact .refl _

/-- A slot obtained an object, and no connection of its own. -/
theorem gains (stream : Handle) {d : Fin okmMaxDesc} {slot : Fin okmMaxSock} {s' : Sock}
    {r : Resource} (hd : w.sockOf d = some slot) (hst : s'.state ≠ .conn)
    (h : Gains enquires (w.sock slot) s' r) : Mild enquires stream w (w.setSlot slot s') [r] := by
  refine ⟨rfl, fun _ => rfl, rfl, rfl, .gained d slot ?_⟩
  refine ⟨⟨fun _ => rfl, fun _ => rfl⟩, fun _ _ => rfl, ?_, ?_, hd, ?_⟩
  · rw [setSlot_sock]
    exact fun hconn => absurd hconn hst
  · intro e hne
    rw [setSlot_of_ne w hne]
    exact .refl _
  · rwa [setSlot_sock]

/-- What a description holds of a stream is no socket's. -/
theorem desc (stream : Handle) {d : Fin okmMaxDesc} {p : Desc} (hrefs : p.refs = (w.desc d).refs)
    (hkind : p.kind = (w.desc d).kind) (hsock : p.sock = (w.desc d).sock)
    (hstream : p.stream = (w.desc d).stream) : Mild enquires stream w (w.setDesc d p) [] :=
  ⟨rfl, setDesc_congr Desc.refs hrefs, rfl, rfl, .still (.setDesc hkind hsock hstream)⟩

/-- A call that goes on after it obtained what it needed. -/
theorem andThen {obtained : List Resource} {u : PortState} (hapt : ∀ slot, (w.sock slot).Apt)
    (h : Mild enquires stream w v obtained) (h' : Mild enquires stream v u []) :
    Mild enquires stream w u obtained := by
  refine ⟨h'.fd.trans h.fd, fun e => (h'.refs e).trans (h.refs e), h'.settling.trans h.settling,
    h'.log.trans h.log, ?_⟩
  cases h'.touched with
  | still hs' =>
    cases h.touched with
    | still hs => exact .still (hs.trans hs')
    | @gained r d slot hg =>
      refine .gained d slot
        ⟨⟨fun e => ?_, fun e => ?_⟩, fun e hne => ?_, fun hconn => ?_, fun e hne => ?_,
          hg.named, ?_⟩
      · rw [hs'.descs.kind, hg.descs.kind]
      · rw [hs'.descs.sock, hg.descs.sock]
      · rw [hs'.streams, hg.streams e hne]
      · rw [(hs'.slots slot).state] at hconn
        rw [hs'.streams, hg.stream hconn]
      · exact (hg.slots e hne).trans (hs'.slots e)
      · exact hg.gains.andThen (hapt slot) (hs'.slots slot)

end Mild

/-! ## The calls on a socket -/

section Calls

variable {w : PortState} {env : IoEnv} {d : Fin okmMaxDesc} {slot : Fin okmMaxSock}

/-- What is shown of what a call leaves. -/
def MildOutcome (env : IoEnv) (w : PortState) (o : SockOutcome) : Prop :=
  Mild False env.connStream w o.port o.obtained

theorem mild_refuse (env : IoEnv) (w : PortState) (e : Errno) : MildOutcome env w (w.refuse e) :=
  .refl _ _ w

theorem mild_becomeDatagram (hd : w.sockOf d = some slot) (hnew : (w.sock slot).state = .new)
    (stream h : Handle) : Mild False stream w (w.becomeDatagram slot h) [.datagram h] :=
  .gains stream hd (by simp) (.datagram hnew rfl rfl)

theorem mild_withDatagram (hd : w.sockOf d = some slot) (hapt : ∀ slot, (w.sock slot).Apt)
    {k : PortState → List Resource → SockOutcome}
    (hobt : ∀ v obtained, (k v obtained).obtained = obtained)
    (hk : ∀ v obtained, Mild False env.connStream v (k v obtained).port []) :
    MildOutcome env w (w.withDatagram env slot k) := by
  unfold withDatagram
  split_ifs with hnew
  · split
    · exact .refl _ _ w
    · rename_i h _
      unfold MildOutcome
      rw [hobt]
      exact (mild_becomeDatagram hd hnew _ h).andThen hapt (hk _ _)
  · unfold MildOutcome
    rw [hobt]
    exact hk w []

theorem mild_bindSlot (hd : w.sockOf d = some slot) (addr : Option Bytes) (len : ℕ) :
    MildOutcome env w (w.bindSlot env slot addr len) := by
  unfold bindSlot
  split_ifs with hnew
  · exact mild_refuse _ _ _
  · rw [not_not] at hnew
    split
    · exact mild_refuse _ _ _
    · rename_i ep _
      have hrecord : Mild False env.connStream w (w.recordLocal slot ep) [] :=
        .slot _ ⟨rfl, rfl, rfl, rfl, rfl, rfl, Or.inl⟩
      unfold bindOpen
      split_ifs
      · exact hrecord
      · split
        · exact hrecord
        · rename_i h _
          have hboth : (w.recordLocal slot ep).becomeDatagram slot h = w.setSlot slot
              { w.sock slot with localEnd := ep, haveLocal := true, dg := h, state := .dgram } := by
            simp [recordLocal, becomeDatagram, setSlot]
          unfold MildOutcome
          rw [hboth]
          exact .gains _ hd (by simp) (.datagram hnew rfl rfl)
      · exact hrecord

theorem mild_listenSlot (hd : w.sockOf d = some slot) :
    MildOutcome env w (w.listenSlot env slot) := by
  unfold listenSlot
  simp only
  split_ifs with ht hl hnew
  · exact mild_refuse _ _ _
  · exact .refl _ _ w
  · exact mild_refuse _ _ _
  · exact mild_refuse _ _ _
  · rw [not_not] at hnew
    split
    · exact .refl _ _ w
    · exact .gains _ hd (by simp) (.listener hnew rfl rfl rfl)

theorem mild_becomeConn (hd : w.sockOf d = some slot) (hnew : (w.sock slot).state = .new)
    (h stream : Handle) : Mild False stream w (w.becomeConn d slot h stream) [.conn h] := by
  refine ⟨rfl, setDesc_congr Desc.refs rfl, rfl, rfl, .gained d slot ?_⟩
  refine ⟨⟨setDesc_congr Desc.kind rfl, setDesc_congr Desc.sock rfl⟩, fun e hne => ?_, fun _ => ?_,
    fun e hne => ?_, hd, ?_⟩
  · show (Function.update w.desc d _ e).stream = _
    rw [Function.update_of_ne hne]
  · show (Function.update w.desc d { w.desc d with stream := stream } d).stream = stream
    rw [Function.update_self]
  · rw [show (w.becomeConn d slot h stream).sock e = w.sock e from setSlot_of_ne w hne _]
    exact .refl _
  · rw [show (w.becomeConn d slot h stream).sock slot =
      { w.sock slot with conn := h, state := .conn } from setSlot_sock w slot _]
    exact .conn hnew rfl rfl rfl

theorem mild_recordPeer (v : PortState) (slot : Fin okmMaxSock) (ep : Endpoint) (stream : Handle) :
    Mild False stream v (v.recordPeer slot ep) [] :=
  .slot _ ⟨rfl, rfl, rfl, rfl, rfl, rfl, Or.inl⟩

theorem mild_connectSlot (hd : w.sockOf d = some slot) (hapt : ∀ slot, (w.sock slot).Apt)
    (addr : Option Bytes) (len : ℕ) : MildOutcome env w (w.connectSlot env d slot addr len) := by
  unfold connectSlot
  simp only
  split
  · exact mild_refuse _ _ _
  · split_ifs with ht hdg hc hnew
    · exact mild_refuse _ _ _
    · exact mild_withDatagram hd hapt (fun _ _ => rfl) fun v _ => mild_recordPeer v slot _ _
    · exact mild_refuse _ _ _
    · exact mild_refuse _ _ _
    · exact mild_refuse _ _ _
    · rw [not_not] at hnew
      split
      · exact .refl _ _ w
      · exact (mild_becomeConn hd hnew _ _).andThen hapt (mild_recordPeer _ slot _ _)

theorem mild_sendSlot (hd : w.sockOf d = some slot) (hapt : ∀ slot, (w.sock slot).Apt)
    (len flags : ℕ) (addr : Option Bytes) (alen : ℕ) :
    MildOutcome env w (w.sendSlot env d slot len flags addr alen) := by
  unfold sendSlot
  simp only
  split_ifs
  · exact mild_refuse _ _ _
  · exact mild_refuse _ _ _
  · split
    · exact mild_refuse _ _ _
    · exact mild_withDatagram hd hapt (fun _ _ => rfl) fun v _ => .refl _ _ v
  · exact mild_refuse _ _ _
  · exact mild_refuse _ _ _
  · exact .refl _ _ w
  · exact .refl _ _ w

/-- What `recv` of an open datagram socket leaves: a message that was kept is not kept any more. -/
theorem mild_recvDatagram (v : PortState) (d : Fin okmMaxDesc) (slot : Fin okmMaxSock)
    (len flags : ℕ) (obtained : List Resource) :
    (v.recvDatagram env d slot len flags obtained).obtained = obtained ∧
      Mild False env.connStream v (v.recvDatagram env d slot len flags obtained).port [] := by
  have hreceived : ∀ r, (v.received obtained len r).obtained = obtained ∧
      Mild False env.connStream v (v.received obtained len r).port [] := by
    rintro (e | m) <;> exact ⟨rfl, .refl _ _ v⟩
  unfold recvDatagram
  simp only
  split_ifs
  · exact ⟨rfl, .slot _ ⟨rfl, rfl, rfl, rfl, rfl, rfl, nofun⟩⟩
  · split
    · exact ⟨rfl, .refl _ _ v⟩
    · exact hreceived _
  · exact hreceived _

theorem mild_recvStream (w : PortState) (d : Fin okmMaxDesc) (slot : Fin okmMaxSock)
    (len flags : ℕ) : MildOutcome env w (w.recvStream env d slot len flags) := by
  unfold recvStream okmTakeAhead
  split_ifs
  · exact .desc _ rfl rfl rfl rfl
  · exact .desc _ rfl rfl rfl rfl
  all_goals exact .refl _ _ w

theorem mild_recvSlot (hd : w.sockOf d = some slot) (hapt : ∀ slot, (w.sock slot).Apt)
    (len flags : ℕ) : MildOutcome env w (w.recvSlot env d slot len flags) := by
  unfold recvSlot
  simp only
  split_ifs
  · exact mild_refuse _ _ _
  · exact mild_refuse _ _ _
  · exact mild_withDatagram hd hapt (fun v o => (mild_recvDatagram v d slot len flags o).1)
      fun v o => (mild_recvDatagram v d slot len flags o).2
  · exact mild_refuse _ _ _
  · exact mild_recvStream w d slot len flags

theorem mild_nameSlot (w : PortState) (slot : Fin okmMaxSock) (peer out : Bool) :
    MildOutcome env w (w.nameSlot env slot peer out) := by
  unfold nameSlot
  split_ifs
  · exact mild_refuse _ _ _
  · split
    · exact mild_refuse _ _ _
    · split
      · exact mild_refuse _ _ _
      · exact .refl _ _ w

theorem mild_setoptSlot (w : PortState) (slot : Fin okmMaxSock) (level opt : Int)
    (time : Option (Int × Int)) : MildOutcome env w (w.setoptSlot env slot level opt time) := by
  unfold setoptSlot
  simp only
  split_ifs
  · exact mild_refuse _ _ _
  · exact .refl _ _ w
  · exact mild_refuse _ _ _
  · exact mild_refuse _ _ _
  · exact .slot _ ⟨rfl, rfl, rfl, rfl, rfl, rfl, Or.inl⟩
  · exact .slot _ ⟨rfl, rfl, rfl, rfl, rfl, rfl, Or.inl⟩
  · exact mild_refuse _ _ _

theorem mild_onSocket {fd : Int} {k : Fin okmMaxDesc → Fin okmMaxSock → SockOutcome}
    (hk : ∀ d slot, w.sockOf d = some slot → MildOutcome env w (k d slot)) :
    MildOutcome env w (w.onSocket fd k) := by
  rcases onSocket_cases w fd k with ⟨e, he, -⟩ | ⟨d, slot, -, hs, he⟩
  · rw [he]
    exact mild_refuse _ _ _
  · rw [he]
    exact hk d slot hs

/-- **What a call on a socket can do**: obtain one object for its slot, or none. -/
theorem mild_run (env : IoEnv) (hapt : ∀ slot, (w.sock slot).Apt) (fd : Int) (call : SockCall) :
    MildOutcome env w (call.run env w fd) := by
  cases call with
  | bind addr len => exact mild_onSocket fun _ _ hs => mild_bindSlot hs addr len
  | listen => exact mild_onSocket fun _ _ hs => mild_listenSlot hs
  | connect addr len => exact mild_onSocket fun _ _ hs => mild_connectSlot hs hapt addr len
  | send len flags addr alen =>
    exact mild_onSocket fun _ _ hs => mild_sendSlot hs hapt len flags addr alen
  | recv len flags => exact mild_onSocket fun _ _ hs => mild_recvSlot hs hapt len flags
  | name peer out => exact mild_onSocket fun _ slot _ => mild_nameSlot w slot peer out
  | setopt level opt time =>
    exact mild_onSocket fun _ slot _ => mild_setoptSlot w slot level opt time

/-- **What an enquiry can do.** -/
theorem mild_waitIn (env : IoEnv) (w : PortState) (d : Fin okmMaxDesc) (ns : ℕ) :
    Mild True env.connStream w (w.waitIn env d ns).port (w.waitIn env d ns).obtained := by
  have hw := waited_waitIn w env d ns
  generalize w.waitIn env d ns = q at hw ⊢
  cases hw with
  | same result => exact .refl _ _ w
  | byte b hnone => exact .desc _ rfl rfl rfl rfl
  | eof hnone => exact .desc _ rfl rfl rfl rfl
  | conn slot c hslot hlisten hnone =>
    exact .gains _ hslot (by simp [hlisten]) (.pending trivial hlisten hnone hlisten rfl rfl rfl)
  | buf slot result hslot hdgram hnone => exact .slot _ ⟨rfl, rfl, rfl, rfl, rfl, rfl, Or.inl⟩
  | message slot m hslot hdgram hnone =>
    rw [keepMessage_obtainBuf]
    exact .slot _ ⟨rfl, rfl, rfl, rfl, rfl, rfl, fun _ => Or.inr hdgram⟩

end Calls

/-! ## The last descriptor of a socket -/

theorem nodup_holds {s : Sock} (h : s.Apt) : s.holds.Nodup := by
  unfold Sock.holds
  cases hp : s.pendConn with
  | false => cases s.state <;> simp
  | true => simp [h.pendConn hp]

theorem filterMap_net_holds (s : Sock) : s.holds.filterMap Resource.net = s.holds := by
  unfold Sock.holds
  cases s.state <;> cases s.pendConn <;> rfl

/-- What a description that is no socket's gives back is no object of the network. -/
theorem net_gives {w : PortState} {p : Desc} (h : p.kind ≠ .socket) :
    (w.gives p).filterMap Resource.net = [] := by
  unfold gives
  cases hk : p.kind with
  | socket => exact absurd hk h
  | _ => rfl

theorem gives_socket {w : PortState} {d : Fin okmMaxDesc} {slot : Fin okmMaxSock}
    (h : w.sockOf d = some slot) :
    (w.gives (w.desc d)).filterMap Resource.net = (w.sock slot).holds := by
  obtain ⟨hk, hs⟩ : (w.desc d).kind = .socket ∧ (w.desc d).sock = some slot := by
    simpa [PortState.sockOf] using h
  unfold gives
  rw [hk, hs]
  exact filterMap_net_holds _

section Emptied

variable {w v : PortState} {d : Fin okmMaxDesc}

theorem sockOf_emptied (h : w.Emptied v d) (e : Fin okmMaxDesc) :
    v.sockOf e = if e = d then none else w.sockOf e := by
  unfold PortState.sockOf
  rw [h.desc]
  rcases eq_or_ne e d with rfl | hne
  · rw [Function.update_self, if_pos rfl]
    rfl
  · rw [Function.update_of_ne hne, if_neg hne]

theorem sock_emptied (h : w.Emptied v d) {slot : Fin okmMaxSock} (hd : w.sockOf d = some slot) :
    v.sock = Function.update w.sock slot (w.sock slot).vacated := by
  obtain ⟨hk, hs⟩ : (w.desc d).kind = .socket ∧ (w.desc d).sock = some slot := by
    simpa [PortState.sockOf] using hd
  rw [h.sock, sockAfter, if_pos hk, hs]
  rfl

theorem sock_emptied_other (h : w.Emptied v d) (hd : (w.desc d).kind ≠ .socket) :
    v.sock = w.sock := by
  rw [h.sock, sockAfter, if_neg hd]

/-- A slot of another socket is as it was. -/
theorem sock_emptied_ne (h : w.Emptied v d) {slot : Fin okmMaxSock} (hd : w.sockOf d ≠ some slot) :
    v.sock slot = w.sock slot := by
  rw [h.sock, sockAfter]
  split_ifs with hk
  · cases hs : (w.desc d).sock with
    | none => rfl
    | some slot' =>
      have hne : slot ≠ slot' := by
        rintro rfl
        exact hd (by simp [PortState.sockOf, hk, hs])
      exact Function.update_of_ne hne _ _
  · rfl

theorem Shape.emptied {streams : Handle → Handle} (h : Shape streams w) (he : w.Emptied v d) :
    Shape streams v := by
  -- a slot in use is not the one that was freed, and its description not the one that went
  have hother : ∀ {e slot}, v.sockOf e = some slot →
      e ≠ d ∧ w.sockOf e = some slot ∧ v.sock slot = w.sock slot := by
    intro e slot hs
    rw [sockOf_emptied he] at hs
    split_ifs at hs with hed
    refine ⟨hed, hs, sock_emptied_ne he fun hd => ?_⟩
    exact hed ((h.named slot (h.used e slot hs)).unique hs hd)
  have hdesc : ∀ {e}, e ≠ d → v.desc e = w.desc e := by
    intro e hne
    rw [he.desc, Function.update_of_ne hne]
  refine ⟨fun slot hslot => ?_, fun e hk => ?_, fun e slot hs => ?_, fun e slot hs hconn => ?_,
    fun slot => ?_⟩
  · have hd : w.sockOf d ≠ some slot := by
      intro hd
      rw [sock_emptied he hd, Function.update_self] at hslot
      exact hslot rfl
    rw [sock_emptied_ne he hd] at hslot
    obtain ⟨e, hs, huniq⟩ := h.named slot hslot
    have hed : e ≠ d := by
      rintro rfl
      exact hd hs
    refine ⟨e, ?_, fun e' hs' => huniq e' (hother hs').2.1⟩
    simp only [sockOf_emptied he, if_neg hed, hs]
  · have hed : e ≠ d := by
      rintro rfl
      rw [he.desc, Function.update_self] at hk
      cases hk
    rw [hdesc hed] at hk
    rw [sockOf_emptied he, if_neg hed]
    exact h.live e hk
  · obtain ⟨-, hs', hsame⟩ := hother hs
    rw [hsame]
    exact h.used e slot hs'
  · obtain ⟨hed, hs', hsame⟩ := hother hs
    rw [hsame] at hconn ⊢
    rw [hdesc hed]
    exact h.stream e slot hs' hconn
  · by_cases hd : w.sockOf d = some slot
    · rw [sock_emptied he hd, Function.update_self]
      exact ⟨nofun, nofun⟩
    · rw [sock_emptied_ne he hd]
      exact h.apt slot

/-- What the slots hold after a socket went. -/
theorem owned_emptied {streams : Handle → Handle} {hist : List (Traffic Resource)}
    (h : Shape streams w) (hown : Owned (Holds w) hist) (he : w.Emptied v d) :
    Owned (Holds v) (hist ++ ((w.gives (w.desc d)).filterMap Resource.net).map .gave) := by
  by_cases hk : (w.desc d).kind = .socket
  · obtain ⟨slot, hd⟩ := h.live d hk
    rw [gives_socket hd]
    refine hown.revokeAll (nodup_holds (h.apt slot)) (fun r hr => hown.held slot r hr) ?_
    intro e r
    unfold Holds
    rcases eq_or_ne e slot with rfl | hne
    · have hnone : (w.sock e).vacated.holds = [] := rfl
      rw [sock_emptied he hd, Function.update_self, hnone]
      exact ⟨nofun, fun hr => absurd hr.1 hr.2⟩
    · rw [sock_emptied_ne he fun hd' => hne (Option.some.inj (hd'.symm.trans hd))]
      refine ⟨fun hr => ⟨hr, fun hr' => hne (hown.unique hr hr')⟩, And.left⟩
  · rw [net_gives hk, List.map_nil, List.append_nil]
    refine hown.congr fun e r => ?_
    unfold Holds
    rw [sock_emptied_other he hk]

end Emptied

/-! ## A socket that is made, and a connection that is placed -/

/-- There is a free descriptor and a free slot. -/
def Room (w : PortState) : Prop := (∃ f, (w.fd f).desc = none) ∧ ∃ slot, (w.sock slot).state = .free

instance (w : PortState) : Decidable (Room w) := inferInstanceAs (Decidable (_ ∧ _))

/-- The table after a descriptor, a description and a slot were taken for a socket. -/
structure Placed (w v : PortState) (d : Fin okmMaxDesc) (slot : Fin okmMaxSock) (stream : Handle)
    (s' : Sock) : Prop where
  exact : v.Exact
  settled : v.settling = []
  free : (w.desc d).kind = .free
  slotFree : (w.sock slot).state = .free
  desc : ∃ p, v.desc = Function.update w.desc d p ∧ p.kind = .socket ∧ p.sock = some slot ∧
    p.stream = stream
  sock : v.sock = Function.update w.sock slot s'
  log : v.log = w.log ++ [.bound d none]

theorem slotAlloc_cases (w : PortState) :
    (w.slotAlloc = none ∧ ∀ slot, (w.sock slot).state ≠ .free) ∨
      ∃ slot, (w.sock slot).state = .free ∧ w.slotAlloc =
        some (slot, w.setSlot slot { state := .new, buf := (w.sock slot).buf }) := by
  unfold slotAlloc
  cases hf : (List.finRange okmMaxSock).find? fun i => (w.sock i).state = .free with
  | none =>
    refine Or.inl ⟨rfl, fun slot hs => ?_⟩
    have := List.find?_eq_none.mp hf slot (List.mem_finRange slot)
    simp [hs] at this
  | some slot =>
    refine Or.inr ⟨slot, ?_, rfl⟩
    simpa using List.find?_some hf

theorem setSock_eq {u : PortState} {f : Fin okmMaxFd} {d : Fin okmMaxDesc}
    (h : u.okmDescOf f.val = some d) (slot : Fin okmMaxSock) :
    u.setSock f slot = u.setDesc d { u.desc d with sock := some slot } := by
  unfold setSock
  rw [h]

/-- **What taking a descriptor and a slot can do**: nothing where one is missing, and otherwise both
are taken. -/
theorem bindSock_cases {w : PortState} (h : w.Exact) (hs : w.settling = []) (me : Context)
    (stream : Handle) (flags : ℕ) (fill : Sock → Sock) :
    (¬ Room w ∧ ∃ e, w.bindSock me stream flags fill = (w, .error e)) ∨
      (Room w ∧ ∃ v f d slot, w.bindSock me stream flags fill = (v, .ok f) ∧
        v.named f = some d ∧
        Placed w v d slot stream (fill { state := .new, buf := (w.sock slot).buf })) := by
  have hexact := (exact_rules me).bindSock stream flags fill h
  unfold bindSock at hexact ⊢
  rcases okmFdAlloc_cases w with ⟨hf, hv⟩ | ⟨f, hf, hfree, -⟩
  · left
    refine ⟨fun hroom => ?_, _, by rw [hf]⟩
    obtain ⟨f, hfree⟩ := hroom.1
    have hpos : 0 < vacant w.named :=
      Finset.card_pos.mpr ⟨f, Finset.mem_filter.mpr ⟨Finset.mem_univ f, hfree⟩⟩
    omega
  · simp only [hf] at hexact ⊢
    rcases slotAlloc_cases w with ⟨hnone, hall⟩ | ⟨slot, hslot, halloc⟩
    · rw [hnone]
      exact Or.inl ⟨fun hroom => (hroom.2.elim fun slot => hall slot), _, rfl⟩
    · right
      refine ⟨⟨⟨f, hfree⟩, slot, hslot⟩, ?_⟩
      rw [halloc] at hexact ⊢
      simp only at hexact ⊢
      have hw : (w.setSlot slot { state := .new, buf := (w.sock slot).buf }).Exact := fun d => h d
      obtain ⟨d, hbind, hd⟩ := hw.okmFdBind_ok hfree me .socket stream 0 0 flags
      rw [hbind] at hexact ⊢
      generalize hu : ((w.setSlot slot { state := .new, buf := (w.sock slot).buf }).bindDesc d
        (((w.setSlot slot { state := .new, buf := (w.sock slot).buf }).desc d).bind .socket stream
          0 0 flags)).setFd f ⟨some d, hasFlag flags oCloexec⟩ = u at hexact ⊢
      have hof : u.okmDescOf f.val = some d := by
        rw [← hu]
        simp [okmDescOf, fdIndex_val, setFd]
      have hset : u.setSock f slot = u.setDesc d { u.desc d with sock := some slot } :=
        setSock_eq hof slot
      have hdesc : u.desc = Function.update w.desc d
        ((w.desc d).bind .socket stream 0 0 flags) := by
        rw [← hu]
        rfl
      have hsock : u.sock = Function.update w.sock slot
          { state := .new, buf := (w.sock slot).buf } := by
        rw [← hu]
        rfl
      have hsettling : u.settling = [] := by
        rw [← hu]
        exact hs
      have hlog : u.log = w.log ++ [.bound d none] := by
        rw [← hu]
        rfl
      refine ⟨_, f, d, slot, rfl, ?_, hexact, ?_, hw.kind_descAlloc hd, hslot, ?_, ?_, ?_⟩
      · rw [hset, ← hu]
        show (Function.update w.fd f ⟨some d, hasFlag flags oCloexec⟩ f).desc = some d
        rw [Function.update_self]
      · rw [hset]
        exact hsettling
      · rw [hset]
        refine ⟨{ (w.desc d).bind .socket stream 0 0 flags with sock := some slot }, ?_,
          rfl, rfl, rfl⟩
        show Function.update u.desc d { u.desc d with sock := some slot } = _
        rw [hdesc, Function.update_idem, Function.update_self]
      · rw [hset]
        show Function.update u.sock slot (fill (u.sock slot)) = _
        rw [hsock, Function.update_idem, Function.update_self]
      · rw [hset]
        exact hlog

section Placed

variable {w v : PortState} {d : Fin okmMaxDesc} {slot : Fin okmMaxSock} {stream : Handle}
  {s' : Sock}

theorem sockOf_placed (h : Placed w v d slot stream s') (e : Fin okmMaxDesc) :
    v.sockOf e = if e = d then some slot else w.sockOf e := by
  obtain ⟨p, hdesc, hkind, hsock, -⟩ := h.desc
  unfold PortState.sockOf
  rw [hdesc]
  rcases eq_or_ne e d with rfl | hne
  · rw [Function.update_self, if_pos rfl, hkind, if_pos rfl, hsock]
  · rw [Function.update_of_ne hne, if_neg hne]

theorem Shape.placed {streams streams' : Handle → Handle} (h : Shape streams w)
    (hp : Placed w v d slot stream s') (hstate : s'.state ≠ .free) (hapt : s'.Apt)
    (hconn : s'.state = .conn → stream = streams' s'.conn)
    (hstreams : ∀ e, (w.sock e).state = .conn →
      streams' (w.sock e).conn = streams (w.sock e).conn) :
    Shape streams' v := by
  obtain ⟨p, hdesc, hkind, hsock, hstream⟩ := hp.desc
  -- no description named the slot, which was free
  have hunnamed : ∀ e, w.sockOf e ≠ some slot := fun e he => h.used e slot he hp.slotFree
  have hat : v.sock slot = s' := by rw [hp.sock, Function.update_self]
  have hslot : ∀ {e}, e ≠ slot → v.sock e = w.sock e := by
    intro e hne
    rw [hp.sock, Function.update_of_ne hne]
  have hd : v.desc d = p := by rw [hdesc, Function.update_self]
  have hne : ∀ {e e'}, w.sockOf e = some e' → e' ≠ slot := by
    rintro e e' he rfl
    exact hunnamed e he
  refine ⟨fun e he => ?_, fun e he => ?_, fun e e' he => ?_, fun e e' he hc => ?_, fun e => ?_⟩
  · rcases eq_or_ne e slot with rfl | hes
    · refine ⟨d, ?_, fun e' he' => ?_⟩
      · simp only [sockOf_placed hp, if_true]
      · by_contra hed
        simp only [sockOf_placed hp, if_neg hed] at he'
        exact hunnamed e' he'
    · rw [hslot hes] at he
      obtain ⟨e', he', huniq⟩ := h.named e he
      have hed : e' ≠ d := by
        rintro rfl
        have hk : (w.desc e').kind = .socket := by
          by_contra hk
          simp [PortState.sockOf, hk] at he'
        rw [hp.free] at hk
        cases hk
      refine ⟨e', ?_, fun e'' he'' => ?_⟩
      · simp only [sockOf_placed hp, if_neg hed, he']
      · simp only [sockOf_placed hp] at he''
        split_ifs at he'' with hed''
        · exact absurd (Option.some.inj he'').symm hes
        · exact huniq e'' he''
  · rw [sockOf_placed hp]
    split_ifs with hed
    · exact ⟨slot, rfl⟩
    · rw [hdesc, Function.update_of_ne hed] at he
      exact h.live e he
  · rw [sockOf_placed hp] at he
    split_ifs at he with hed
    · rw [← Option.some.inj he, hat]
      exact hstate
    · rw [hslot (hne he)]
      exact h.used e e' he
  · rw [sockOf_placed hp] at he
    split_ifs at he with hed
    · rw [← Option.some.inj he, hat] at hc ⊢
      rw [hed, hd, hstream]
      exact hconn hc
    · rw [hslot (hne he)] at hc ⊢
      rw [hdesc, Function.update_of_ne hed, hstreams e' hc]
      exact h.stream e e' he hc
  · rcases eq_or_ne e slot with rfl | hes
    · rw [hat]
      exact hapt
    · rw [hslot hes]
      exact h.apt e

theorem pendConn_of_free {s : Sock} (h : s.Apt) (hfree : s.state = .free) :
    s.pendConn = false := by
  rw [Bool.eq_false_iff]
  intro hp
  rw [h.pendConn hp] at hfree
  cases hfree

theorem holds_free {s : Sock} (h : s.Apt) (hfree : s.state = .free) : s.holds = [] := by
  simp [Sock.holds, hfree, pendConn_of_free h hfree]

/-- What the slots hold after one more is in use. -/
theorem holds_placed (hp : Placed w v d slot stream s') (hapt : (w.sock slot).Apt)
    (e : Fin okmMaxSock) (r : Resource) :
    Holds v e r ↔ Holds w e r ∨ e = slot ∧ r ∈ s'.holds := by
  unfold Holds
  rcases eq_or_ne e slot with rfl | hne
  · rw [hp.sock, Function.update_self, holds_free hapt hp.slotFree]
    simp
  · rw [hp.sock, Function.update_of_ne hne]
    simp [hne]

/-- Placing a socket closes nothing. -/
theorem Placed.hist {s : Net} (hp : Placed w v d slot stream s') (hlog : w.log = s.port.log)
    (obtained : List Resource) (st : Handle) :
    (s.after v obtained st).hist = s.hist ++ (obtained.filterMap Resource.net).map .got := by
  have hnone : [Event.bound d none].filterMap Event.released = [] := rfl
  have hbound : v.log = s.port.log ++ [.bound d none] := by rw [hp.log, hlog]
  rw [after_hist hbound, hnone]
  exact List.append_nil _

end Placed

/-! ## What a call closes -/

/-- What a call closes was held by a socket whose last descriptor went, or is a connection for which
an `accept` had no descriptor or no slot. -/
inductive Closed (s : Net) (l : NetCall) (t : Net) (r : Resource) : Prop
  | last (d : Fin okmMaxDesc) (slot : Fin okmMaxSock) (named : s.port.sockOf d = some slot)
    (held : Holds s.port slot r) (one : occ s.port.named d = 1)
    (gone : (t.port.desc d).kind = .free) (free : (t.port.sock slot).state = .free)
  | unplaced (env : Env) (fd : Int) (flags : ℕ) (c : Handle) (call : l = .accept env fd flags)
    (conn : r = .conn c) (atHand : s.port.atHand env fd flags = some c) (room : ¬ Room s.port)

/-- A call keeps the representation, obtains objects, and closes what it may. -/
structure Kept (s : Net) (l : NetCall) (t : Net) : Prop where
  rep : Rep t
  hist : ∃ got closed : List Resource, t.hist = s.hist ++ got.map .got ++ closed.map .gave ∧
    ∀ r ∈ closed, Closed s l t r

/-- A call that releases no descriptor closes nothing. -/
theorem Rep.kept_mild {s : Net} (h : Rep s) (l : NetCall) {v : PortState}
    {obtained : List Resource} {enquires : Prop} {stream : Handle}
    (hm : Mild enquires stream s.port v obtained) (hfresh : s.Fresh obtained) :
    Kept s l (s.after v obtained stream) := by
  have hlog : v.log = s.port.log ++ [] := by rw [hm.log, List.append_nil]
  refine ⟨h.mild hm hfresh, obtained.filterMap Resource.net, [], ?_, nofun⟩
  exact after_hist hlog obtained stream

/-- **`socket`.** -/
theorem Rep.kept_socket {s : Net} (h : Rep s) (me : Context) (env : Env) (domain : Int) (type : ℕ)
    (protocol : Int) : Kept s (.socket env domain type protocol)
      (s.after (s.port.okmSockOpen me env domain type protocol).port [] 0) := by
  have hsame : Kept s (.socket env domain type protocol) (s.after s.port [] 0) :=
    h.kept_mild _ (.refl False 0 s.port) nofun
  unfold okmSockOpen
  simp only
  split_ifs
  · exact hsame
  · exact hsame
  · exact hsame
  · exact hsame
  · exact hsame
  · unfold sockOpen finishPlain
    rcases bindSock_cases h.exact h.settled me 0 (oRdwr ||| sockFlags type) (fun s => { s with
        domain := domain, type := otherFlags type (sockCloexec ||| sockNonblock),
        protocol := protocol }) with ⟨-, e, hb⟩ | ⟨-, v, f, d, slot, hb, -, hp⟩
    · rw [hb, leave_of_settled h.settled]
      exact hsame
    · rw [hb, leave_of_settled hp.settled]
      have hhist : (s.after v [] 0).hist = s.hist := by simpa using hp.hist rfl [] 0
      refine ⟨⟨hp.exact, hp.settled, ?_, ?_⟩, [], [], by simpa using hhist, nofun⟩
      · exact h.shape.placed hp nofun ⟨nofun, nofun⟩ nofun fun _ _ => rfl
      · rw [hhist]
        refine h.owned.congr fun e r => ?_
        rw [show (s.after v [] 0).port = v from rfl, holds_placed hp (h.shape.apt slot)]
        simp [Sock.holds]

/-! ## `accept` -/

/-- What `accept` can do: fail with the table as it was, or place a connection, which waited or was
given by the environment. -/
theorem okmSockAccept_cases (w : PortState) (me : Context) (env : Env) (fd : Int) (flags : ℕ) :
    (w.atHand env fd flags = none ∧ ∃ e, w.okmSockAccept me env fd flags = w.fail e) ∨
      ∃ slot c, (w.okmDescOf fd).bind w.sockOf = some slot ∧ (w.sock slot).state = .listen ∧
        w.atHand env fd flags = some c ∧
        ((w.pendingOf fd = some c ∧ (w.sock slot).pendConn = true ∧ (w.sock slot).pend = c ∧
            w.okmSockAccept me env fd flags = (w.takePending slot).acceptConn me env c flags) ∨
          (w.pendingOf fd = none ∧
            w.okmSockAccept me env fd flags = w.acceptConn me env c flags)) := by
  unfold okmSockAccept atHand pendingOf
  cases hd : w.okmDescOf fd with
  | none => exact Or.inl ⟨rfl, _, rfl⟩
  | some d =>
    simp only [Option.bind_some]
    rw [show (if (w.desc d).kind = .socket then (w.desc d).sock else none) = w.sockOf d from rfl]
    cases hs : w.sockOf d with
    | none => exact Or.inl ⟨rfl, _, rfl⟩
    | some slot =>
      simp only [Option.bind_some]
      by_cases hlisten : (w.sock slot).state = .listen
      · by_cases hflags : otherFlags flags (sockCloexec ||| sockNonblock) = 0
        · cases hbound : (hasFlag flags sockNonblock && !env.canBound) with
          | true => exact Or.inl ⟨by simp, _, by simp [hlisten, hflags]; rfl⟩
          | false =>
            simp only [hlisten, hflags, ne_eq, not_true_eq_false, false_or, Bool.false_eq_true,
              if_false]
            cases hpend : (w.sock slot).pendConn with
            | true =>
              refine Or.inr ⟨slot, _, rfl, hlisten, by rw [if_pos rfl],
                Or.inl ⟨?_, hpend, rfl, ?_⟩⟩
              · rw [if_pos rfl]
              · rw [if_pos rfl]
            | false =>
              simp only [Bool.false_eq_true, if_false]
              split_ifs
              · cases env.timeoutAccept with
                | none => exact Or.inl ⟨rfl, _, rfl⟩
                | some r =>
                  cases r with
                  | error e => exact Or.inl ⟨rfl, _, rfl⟩
                  | ok c => exact Or.inr ⟨slot, c, rfl, hlisten, rfl, Or.inr ⟨trivial, rfl⟩⟩
              · cases env.netAccept with
                | error e => exact Or.inl ⟨rfl, _, rfl⟩
                | ok c => exact Or.inr ⟨slot, c, rfl, hlisten, rfl, Or.inr ⟨trivial, rfl⟩⟩
        · exact Or.inl ⟨by simp [hflags], _, by simp [hlisten, hflags]; rfl⟩
      · exact Or.inl ⟨by simp [hlisten], _, by simp [hlisten]; rfl⟩

theorem Placed.cloexec {w v : PortState} {d : Fin okmMaxDesc} {slot : Fin okmMaxSock}
    {stream : Handle} {s' : Sock} (hp : Placed w v d slot stream s') (fd : Int) (on : Bool) :
    Placed w (v.okmFdCloexec fd on).1 d slot stream s' := by
  have hexact : (v.okmFdCloexec fd on).1.Exact := (exact_rules 0).cloexec v fd on hp.exact
  rcases v.okmFdCloexec_cases fd on with he | ⟨f, e, -, he⟩
  · rw [he]
    exact hp
  · rw [he] at hexact ⊢
    exact ⟨hexact, hp.settled, hp.free, hp.slotFree, hp.desc, hp.sock, hp.log⟩

theorem acceptConn_obtained (w : PortState) (me : Context) (env : Env) (c : Handle) (flags : ℕ) :
    (w.acceptConn me env c flags).obtained = [.conn c] := by
  unfold acceptConn
  split <;> rfl

/-- **What placing a connection can do**: close it where there is no room, and otherwise take a
descriptor and a slot for it. -/
theorem acceptConn_cases {w : PortState} (h : w.Exact) (hs : w.settling = []) (me : Context)
    (env : Env) (c : Handle) (flags : ℕ) :
    (¬ Room w ∧ (∃ e, (w.acceptConn me env c flags).result = .error e) ∧
        (w.acceptConn me env c flags).port = w.record (.returned me (.conn c))) ∨
      (Room w ∧ ∃ f d slot, (w.acceptConn me env c flags).result = .ok f ∧
        (w.acceptConn me env c flags).port.okmDescOf f = some d ∧
        Placed w (w.acceptConn me env c flags).port d slot env.connStream
          { state := .conn, conn := c, type := 1, buf := (w.sock slot).buf }) := by
  unfold acceptConn adopt
  rcases bindSock_cases h hs me env.connStream (oRdwr ||| sockFlags flags)
    (fun s => { s with state := .conn, conn := c, type := 1 }) with
    ⟨hno, e, hb⟩ | ⟨hroom, v, f, d, slot, hb, hf, hp⟩
  · rw [hb]
    refine Or.inl ⟨hno, ⟨e, rfl⟩, ?_⟩
    have hset : (w.record (.returned me (.conn c))).settling = [] := hs
    exact leave_of_settled hset me
  · rw [hb]
    refine Or.inr ⟨hroom, f.val, d, slot, rfl, ?_⟩
    have hof : ∀ u : PortState, u.named f = some d → u.okmDescOf f.val = some d := by
      intro u hu
      rw [okmDescOf, fdIndex_val, Option.bind_some]
      exact hu
    simp only [finishPlain]
    split_ifs
    · rw [leave_of_settled (hp.cloexec f.val true).settled]
      refine ⟨hof _ ?_, hp.cloexec f.val true⟩
      rw [named_okmFdCloexec]
      exact hf
    · rw [leave_of_settled hp.settled]
      exact ⟨hof _ hf, hp⟩

/-- The slot of a connection that was accepted. -/
theorem conn_ne_free (c : Handle) (buf : Option (List UInt8)) :
    ({ state := .conn, conn := c, type := 1, buf := buf } : Sock).state ≠ .free := by
  intro h
  cases h

theorem apt_conn (c : Handle) (buf : Option (List UInt8)) :
    ({ state := .conn, conn := c, type := 1, buf := buf } : Sock).Apt := by
  constructor
  · intro h
    cases h
  · intro h
    cases h

/-- The streams after a connection was obtained. -/
theorem streams_fresh {s : Net} (h : Rep s) {c : Handle} (hc : .conn c ∉ s.held) (v : PortState)
    (stream : Handle) (e : Fin okmMaxSock) (he : (s.port.sock e).state = .conn) :
    (s.after v [.conn c] stream).streams (s.port.sock e).conn =
      s.streams (s.port.sock e).conn := by
  have hne : (s.port.sock e).conn ≠ c := by
    rintro rfl
    exact hc (h.owned.held e _ (mem_holds_conn he))
  simp [after, hne]

/-- An `accept` that obtained a connection. -/
theorem Rep.kept_fresh {s : Net} (h : Rep s) (me : Context) (env : Env) (fd : Int) (flags : ℕ)
    {c : Handle} (hc : .conn c ∉ s.held) (hhand : s.port.atHand env fd flags = some c) :
    Kept s (.accept env fd flags)
      (s.after (s.port.acceptConn me env c flags).port [.conn c] env.connStream) := by
  have hstreams := streams_fresh h hc (s.port.acceptConn me env c flags).port env.connStream
  rcases acceptConn_cases h.exact h.settled me env c flags with
    ⟨hno, -, hport⟩ | ⟨-, f, d, slot, -, -, hp⟩
  · rw [hport] at hstreams ⊢
    have hlog : (s.port.record (.returned me (.conn c))).log =
        s.port.log ++ [.returned me (.conn c)] := rfl
    have hhist : (s.after (s.port.record (.returned me (.conn c))) [.conn c] env.connStream).hist =
        s.hist ++ [.got (.conn c)] ++ [.gave (.conn c)] := after_hist hlog _ _
    refine ⟨⟨h.exact, h.settled, ?_, ?_⟩, [.conn c], [.conn c], hhist, ?_⟩
    · exact h.shape.congr ⟨fun _ => rfl, fun _ => rfl⟩ (fun _ => rfl) (fun _ => rfl) (fun _ => rfl)
        hstreams h.shape.apt
    · rw [hhist]
      exact h.owned.pass hc
    · intro r hr
      exact .unplaced env fd flags c rfl (List.mem_singleton.mp hr) hhand hno
  · generalize (s.port.acceptConn me env c flags).port = v at hp hstreams ⊢
    have hhist : (s.after v [.conn c] env.connStream).hist = s.hist ++ [.got (.conn c)] :=
      hp.hist rfl _ _
    refine ⟨⟨hp.exact, hp.settled, ?_, ?_⟩, [.conn c], [], by simpa using hhist, nofun⟩
    · refine h.shape.placed hp (conn_ne_free _ _) (apt_conn _ _) (fun _ => ?_) hstreams
      simp [after]
    · rw [hhist]
      refine h.owned.grant (o := slot) hc fun e r => ?_
      rw [show (s.after v [.conn c] env.connStream).port = v from rfl,
        holds_placed hp (h.shape.apt slot)]
      simp [Sock.holds]

section Pending

variable {s : Net} {slot : Fin okmMaxSock} {c : Handle}

theorem takePending_eq (w : PortState) (slot : Fin okmMaxSock) :
    w.takePending slot = w.setSlot slot { w.sock slot with pendConn := false } := rfl

/-- A connection that waits is taken, and the listener holds it no more. -/
theorem holds_takePending (h : Rep s) (hlisten : (s.port.sock slot).state = .listen)
    (hpend : (s.port.sock slot).pendConn = true) (hc : (s.port.sock slot).pend = c)
    (e : Fin okmMaxSock) (r : Resource) :
    Holds (s.port.takePending slot) e r ↔ Holds s.port e r ∧ r ≠ .conn c := by
  have hat : Holds s.port slot (.conn c) := by
    simp [Holds, Sock.holds, hpend, hc]
  rcases eq_or_ne e slot with rfl | hne
  · unfold Holds
    rw [takePending_eq, setSlot_sock]
    have hlis : r = .listener (s.port.sock e).lis → r ≠ .conn c := by
      rintro rfl hr
      cases hr
    simp only [Sock.holds, hlisten, hpend, hc, Bool.false_eq_true, if_false, if_true,
      List.append_nil, List.mem_singleton, List.mem_append]
    refine ⟨fun hr => ⟨Or.inl hr, hlis hr⟩, fun hr => hr.1.resolve_right hr.2⟩
  · unfold Holds
    rw [takePending_eq, setSlot_of_ne _ hne]
    refine ⟨fun hr => ⟨hr, ?_⟩, And.left⟩
    rintro rfl
    exact hne (h.owned.unique hr hat)

theorem shape_takePending (h : Rep s) (slot : Fin okmMaxSock) :
    Shape s.streams (s.port.takePending slot) := by
  have hat : ∀ {β : Type} (f : Sock → β),
      f { s.port.sock slot with pendConn := false } = f (s.port.sock slot) →
      ∀ e, f ((s.port.takePending slot).sock e) = f (s.port.sock e) := by
    intro β f hf e
    rw [takePending_eq]
    rcases eq_or_ne e slot with rfl | hne
    · rw [setSlot_sock, hf]
    · rw [setSlot_of_ne _ hne]
  refine h.shape.congr ⟨fun _ => rfl, fun _ => rfl⟩ (fun _ => rfl) (hat Sock.state rfl)
    (hat Sock.conn rfl) (fun _ _ => rfl) fun e => ?_
  rw [takePending_eq]
  rcases eq_or_ne e slot with rfl | hne
  · rw [setSlot_sock]
    exact ⟨nofun, (h.shape.apt e).pendMsg⟩
  · rw [setSlot_of_ne _ hne]
    exact h.shape.apt e

theorem room_takePending (w : PortState) (slot : Fin okmMaxSock) :
    Room (w.takePending slot) ↔ Room w := by
  have hstate : ∀ e, ((w.takePending slot).sock e).state = (w.sock e).state := by
    intro e
    rw [takePending_eq]
    rcases eq_or_ne e slot with rfl | hne
    · rw [setSlot_sock]
    · rw [setSlot_of_ne _ hne]
  unfold Room
  simp only [hstate]
  rfl

/-- An `accept` of a connection that waits. -/
theorem Rep.kept_pending (h : Rep s) (me : Context) (env : Env) (fd : Int) (flags : ℕ)
    (hlisten : (s.port.sock slot).state = .listen) (hpend : (s.port.sock slot).pendConn = true)
    (hc : (s.port.sock slot).pend = c) (hstream : env.connStream = s.streams c)
    (hhand : s.port.atHand env fd flags = some c) :
    Kept s (.accept env fd flags)
      (s.after ((s.port.takePending slot).acceptConn me env c flags).port [] env.connStream) := by
  have hholds := holds_takePending h hlisten hpend hc
  have hshape := shape_takePending h slot
  have hheld : .conn c ∈ s.held := h.owned.held slot _ (by simp [Holds, Sock.holds, hpend, hc])
  have hexact : (s.port.takePending slot).Exact := fun d => h.exact d
  have hstreams : ∀ v, (s.after v [] env.connStream).streams = s.streams := by
    intro v
    funext e
    simp [after]
  rcases acceptConn_cases hexact h.settled me env c flags with
    ⟨hno, -, hport⟩ | ⟨-, f, d, e, -, -, hp⟩
  · rw [hport]
    have hlog : ((s.port.takePending slot).record (.returned me (.conn c))).log =
        s.port.log ++ [.returned me (.conn c)] := rfl
    have hhist : (s.after ((s.port.takePending slot).record (.returned me (.conn c))) []
        env.connStream).hist = s.hist ++ [.gave (.conn c)] := by
      simpa [Event.released, Resource.net] using after_hist hlog [] env.connStream
    refine ⟨⟨hexact, h.settled, ?_, ?_⟩, [], [.conn c], by simpa using hhist, ?_⟩
    · rw [hstreams]
      exact hshape.still ⟨⟨fun _ => rfl, fun _ => rfl⟩, fun _ => rfl, fun _ => .refl _⟩
    · rw [hhist]
      exact (h.owned.revoke hheld).congr hholds
    · intro r hr
      exact .unplaced env fd flags c rfl (List.mem_singleton.mp hr) hhand
        (mt (room_takePending s.port slot).mpr hno)
  · generalize ((s.port.takePending slot).acceptConn me env c flags).port = v at hp ⊢
    have hhist : (s.after v [] env.connStream).hist = s.hist := by
      simpa using hp.hist (s := s) rfl [] env.connStream
    refine ⟨⟨hp.exact, hp.settled, ?_, ?_⟩, [], [], by simpa using hhist, ?_⟩
    · rw [hstreams]
      exact hshape.placed hp (conn_ne_free _ _) (apt_conn _ _) (fun _ => hstream) fun _ _ => rfl
    · rw [hhist]
      -- the connection passes from the listener to the socket that was made for it
      refine h.owned.move (o := e) hheld fun e' r => ?_
      rw [show (s.after v [] env.connStream).port = v from rfl,
        holds_placed hp (hshape.apt e), hholds]
      simp [Sock.holds]
    · intro r hr
      cases hr

end Pending

/-- **`accept`.** -/
theorem Rep.kept_accept {s : Net} (h : Rep s) (me : Context) (env : Env) (fd : Int) (flags : ℕ)
    (hfresh : s.Fresh (s.acceptObtains me env fd flags))
    (hstream : ∀ c ∈ s.port.pendingOf fd, env.connStream = s.streams c) :
    Kept s (.accept env fd flags) (s.after (s.port.okmSockAccept me env fd flags).port
      (s.acceptObtains me env fd flags) env.connStream) := by
  unfold acceptObtains at hfresh ⊢
  rcases okmSockAccept_cases s.port me env fd flags with ⟨-, e, he⟩ | ⟨slot, c, -, hlisten, hhand,
    ⟨hpending, hpend, hc, he⟩ | ⟨hnone, he⟩⟩
  · have hobt : (if s.port.pendingOf fd = none then (s.port.fail e).obtained else []) = [] :=
      ite_self []
    rw [he, hobt]
    exact h.kept_mild _ (.refl False _ s.port) nofun
  · rw [he, if_neg (by rw [hpending]; nofun)]
    exact h.kept_pending me env fd flags hlisten hpend hc (hstream c hpending) hhand
  · rw [he, if_pos hnone, acceptConn_obtained] at hfresh ⊢
    exact h.kept_fresh me env fd flags (hfresh _ (List.mem_singleton_self _)) hhand

/-! ## `close` and `dup2` -/

/-- What taking a descriptor from what it named can do: others name it still, or it was the last. -/
inductive Released (w v : PortState) : Prop
  | still (same : Still w v) (log : v.log = w.log)
  | emptied {x u : PortState} {d : Fin okmMaxDesc} (before : Still w x) (log : x.log = w.log)
    (empty : x.Emptied u d) (one : occ w.named d = 1) (same : Still u v) (log' : v.log = u.log)

/-- A description that one descriptor names, and whose count is one at most, has one. -/
theorem occ_eq_one {w : PortState} (h : w.Exact) {f : Fin okmMaxFd} {d : Fin okmMaxDesc}
    (hf : (w.fd f).desc = some d) (hlast : (w.desc d).refs ≤ 1) : occ w.named d = 1 := by
  have hpos : 0 < occ w.named d := occ_pos (show w.named f = some d from hf)
  have hrefs := (h d).1
  omega

theorem released_doClose {w : PortState} (h : w.Exact) (hset : w.settling = []) (me : Context)
    (fd : Int) : Released w (w.doClose me fd).port ∧ (w.doClose me fd).port.settling = [] := by
  rcases w.doClose_cases me fd with hport | ⟨f, d, hf, hport⟩
  · rw [hport]
    exact ⟨.still (.refl w) rfl, hset⟩
  rw [hport]
  have hset' : (w.setFd f {}).settling = [] := hset
  rcases leave_descRelease_cases hset' me d with ⟨-, he⟩ | ⟨hlast, he⟩
  · rw [he]
    have hless : Still (w.setFd f {}) ((w.setFd f {}).setDesc d ((w.setFd f {}).oneLess d)) :=
      .setDesc rfl rfl rfl
    exact ⟨.still ((Still.setFd w f {}).trans hless) rfl, hset⟩
  · exact ⟨.emptied (Still.setFd w f {}) rfl he (occ_eq_one h hf hlast) (.refl _) rfl, he.settling⟩

theorem released_doDup {w : PortState} (h : w.Exact) (hset : w.settling = []) (me : Context)
    (fd newfd : Int) (cloexec : Bool) :
    Released w (w.doDup me fd newfd cloexec).port ∧
      (w.doDup me fd newfd cloexec).port.settling = [] := by
  rcases doDup_cases hset me fd newfd cloexec with hport | ⟨f, n, d, hf, hn, hport⟩
  · rw [hport]
    exact ⟨.still (.refl w) rfl, hset⟩
  rw [hport]
  -- the descriptor that is counted changes no socket
  have hcount : ∀ u : PortState, Still u ((u.addRef d).setFd n ⟨some d, cloexec⟩) := by
    intro u
    have hadd : Still u (u.addRef d) := .setDesc rfl rfl rfl
    exact hadd.trans (.setFd _ n _)
  cases hold : (w.fd n).desc with
  | none =>
    have hvac : (w.vacate me n).leave me = w := by
      rw [vacate, hold]
      exact leave_of_settled hset me
    rw [hvac]
    exact ⟨.still (hcount w) rfl, hset⟩
  | some old =>
    have hvac : w.vacate me n = w.descRelease me old := by rw [vacate, hold]
    rw [hvac]
    rcases leave_descRelease_cases hset me old with ⟨-, he⟩ | ⟨hlast, he⟩
    · rw [he]
      have hless : Still w (w.setDesc old (w.oneLess old)) := .setDesc rfl rfl rfl
      exact ⟨.still (hless.trans (hcount _)) rfl, hset⟩
    · exact ⟨.emptied (.refl w) rfl he (occ_eq_one h hold hlast) (hcount _) rfl, he.settling⟩

/-- A slot is as it was, or free. -/
theorem Released.slot {w v : PortState} (h : Released w v) (slot : Fin okmMaxSock) :
    SameObject (w.sock slot) (v.sock slot) ∨
      (v.sock slot).state = .free ∧ (v.sock slot).pendConn = false := by
  cases h with
  | still same log => exact Or.inl (same.slots slot)
  | @emptied x u d before log empty one same log' =>
    by_cases hd : x.sockOf d = some slot
    · right
      rw [(same.slots slot).state, (same.slots slot).pendConn, sock_emptied empty hd,
        Function.update_self]
      exact ⟨rfl, rfl⟩
    · left
      have hmid : u.sock slot = x.sock slot := sock_emptied_ne empty hd
      have hlast := same.slots slot
      rw [hmid] at hlast
      exact (before.slots slot).trans hlast

/-- A call that takes the last descriptor of a description. -/
theorem Rep.kept_released {s : Net} (h : Rep s) (l : NetCall) {v : PortState}
    (hr : Released s.port v) (hexact : v.Exact) (hsettled : v.settling = []) :
    Kept s l (s.after v [] 0) := by
  cases hr with
  | still same log =>
    obtain ⟨hrep, hsame⟩ := h.still same hexact hsettled log 0
    exact ⟨hrep, [], [], by simpa using hsame, nofun⟩
  | @emptied w u d hw hwlog he hone hs hlog =>
    obtain ⟨es, hes, hgives⟩ := he.log
    have hshape : Shape s.streams w := h.shape.still hw
    have hown : Owned (Holds w) s.hist := by
      refine h.owned.congr fun slot r => ?_
      unfold Holds
      rw [(hw.slots slot).holds]
    have hlog' : v.log = s.port.log ++ es := by rw [hlog, hes, hwlog]
    have hhist : (s.after v [] 0).hist =
        s.hist ++ ((w.gives (w.desc d)).filterMap Resource.net).map .gave := by
      have := after_hist hlog' [] 0
      rw [hgives] at this
      simpa using this
    refine ⟨⟨hexact, hsettled, ?_, ?_⟩, [], (w.gives (w.desc d)).filterMap Resource.net,
      by simpa using hhist, fun r hr => ?_⟩
    · have hstreams : (s.after v [] 0).streams = s.streams := by
        funext c
        simp [after]
      rw [hstreams]
      exact (hshape.emptied he).still hs
    · rw [hhist]
      refine (owned_emptied hshape hown he).congr fun slot r => ?_
      show r ∈ (v.sock slot).holds ↔ r ∈ (u.sock slot).holds
      rw [(hs.slots slot).holds]
    · -- what was given back is what the description's slot held
      by_cases hk : (w.desc d).kind = .socket
      · obtain ⟨slot, hd⟩ := hshape.live d hk
        rw [gives_socket hd, (hw.slots slot).holds] at hr
        refine .last d slot ((hw.descs.sockOf d).symm.trans hd) hr hone ?_ ?_
        · show (v.desc d).kind = .free
          rw [hs.descs.kind, he.desc, Function.update_self]
          rfl
        · show (v.sock slot).state = .free
          rw [(hs.slots slot).state, sock_emptied he hd, Function.update_self]
          rfl
      · rw [net_gives hk] at hr
        cases hr

theorem exact_doClose {w : PortState} (h : w.Exact) (me : Context) (fd : Int) :
    (w.doClose me fd).port.Exact := by
  unfold doClose
  split
  · exact h
  · exact exact_leave (exact_okmFdRelease h me fd) me

/-- **`close`.** -/
theorem Rep.kept_close {s : Net} (h : Rep s) (me : Context) (fd : Int) :
    Kept s (.close fd) (s.after (s.port.doClose me fd).port [] 0) := by
  obtain ⟨hr, hset⟩ := released_doClose h.exact h.settled me fd
  exact h.kept_released _ hr (exact_doClose h.exact me fd) hset

/-- **`dup`, `dup2` and `dup3`.** -/
theorem Rep.kept_dup {s : Net} (h : Rep s) (me : Context) (fd newfd : Int) (cloexec : Bool) :
    Kept s (.dup fd newfd cloexec) (s.after (s.port.doDup me fd newfd cloexec).port [] 0) := by
  obtain ⟨hr, hset⟩ := released_doDup h.exact h.settled me fd newfd cloexec
  exact h.kept_released _ hr (exact_leave (exact_okmFdDup h.exact me fd newfd cloexec) me) hset

/-! ## Runs -/

/-- Enquiries, one after another, keep the representation and close nothing. -/
theorem kept_enquiries {s t : Net} (h : Rep s) (l : NetCall) {asked : List Asked}
    (hrun : run enquire s asked = some t) : Kept s l t := by
  have hinv : Rep t ∧ ∃ got : List Resource, t.hist = s.hist ++ got.map .got := by
    have hreach : Reachable enquire s t := ⟨asked, hrun⟩
    refine hreach.invariant
      (I := fun u => Rep u ∧ ∃ got : List Resource, u.hist = s.hist ++ got.map .got)
      ⟨h, [], by simp⟩ ?_
    rintro u a v ⟨hu, got, hgot⟩ hv
    simp only [enquire, Option.ite_none_right_eq_some, Option.some.injEq] at hv
    obtain ⟨hfresh, rfl⟩ := hv
    have hm := mild_waitIn a.env u.port a.d a.ns
    refine ⟨hu.mild hm hfresh,
      got ++ (u.port.waitIn a.env a.d a.ns).obtained.filterMap Resource.net, ?_⟩
    have hlog : (u.port.waitIn a.env a.d a.ns).port.log = u.port.log ++ [] := by
      rw [hm.log, List.append_nil]
    rw [after_hist hlog, hgot]
    simp
  obtain ⟨hrep, got, hgot⟩ := hinv
  exact ⟨hrep, got, [], by simpa using hgot, nofun⟩

/-- **What a call does**: it keeps the representation. -/
theorem kept_step {me : Context} {s t : Net} (h : Rep s) {l : NetCall}
    (hstep : step me s l = some t) : Kept s l t := by
  cases l with
  | socket env domain type protocol =>
    cases hstep
    exact h.kept_socket me env domain type protocol
  | accept env fd flags =>
    simp only [step, Option.ite_none_right_eq_some, Option.some.injEq] at hstep
    obtain ⟨⟨hfresh, hstream⟩, rfl⟩ := hstep
    exact h.kept_accept me env fd flags hfresh hstream
  | sock env fd call =>
    simp only [step, Option.ite_none_right_eq_some, Option.some.injEq] at hstep
    obtain ⟨hfresh, rfl⟩ := hstep
    exact h.kept_mild _ (mild_run env h.shape.apt fd call) hfresh
  | poll fds timeoutMs rounds => exact kept_enquiries h _ hstep
  | select nfds rd wr timeoutMs rounds => exact kept_enquiries h _ hstep
  | dup fd newfd cloexec =>
    cases hstep
    exact h.kept_dup me fd newfd cloexec
  | close fd =>
    cases hstep
    exact h.kept_close me fd

theorem rep_start {w : PortState} (h : Bare w) : Rep (start w) where
  exact := h.exact
  settled := h.settled
  shape := by
    have hno : ∀ d, w.sockOf d = none := fun d => by simp [PortState.sockOf, h.desc d]
    refine ⟨fun slot hs => absurd (h.slot slot).1 hs, fun d hd => absurd hd (h.desc d),
      fun d slot hs => ?_, fun d slot hs => ?_, fun slot => ?_⟩
    · exact absurd hs (by simp [start, hno])
    · exact absurd hs (by simp [start, hno])
    · exact ⟨by simp [start, (h.slot slot).2.1], by simp [start, (h.slot slot).2.2]⟩
  owned := by
    refine ⟨nofun, fun slot r hr => ?_, History.always_nil _⟩
    have hnone : (w.sock slot).holds = [] := by
      simp [Sock.holds, (h.slot slot).1, (h.slot slot).2.1]
    rw [Holds, show (start w).port.sock slot = w.sock slot from rfl, hnone] at hr
    cases hr

/-- The table a program starts with has no socket. -/
theorem bare_okmTableInit (me : Context) (init : Start) : Bare (okmTableInit me init) where
  exact := System.exact_of_reachable (Reachable.refl _ (System.start me init))
  settled := okmTableInit_settling me init
  desc := by
    refine okmTableInit_keeps (I := fun w => ∀ d, (w.desc d).kind ≠ .socket) ?_
      (fun _ _ _ _ hw => hw) me init fun _ => nofun
    intro w d f t stream flags hw e
    show (Function.update w.desc d _ e).kind ≠ .socket
    rcases eq_or_ne e d with rfl | hne
    · rw [Function.update_self]
      nofun
    · rw [Function.update_of_ne hne]
      exact hw e
  slot := okmTableInit_keeps
    (I := fun w => ∀ slot, (w.sock slot).state = .free ∧ (w.sock slot).pendConn = false ∧
      (w.sock slot).pendMsg = false)
    (fun _ _ _ _ _ _ hw => hw) (fun _ _ _ _ hw => hw) me init fun _ => ⟨rfl, rfl, rfl⟩

/-- Enquiries leave the table that the call leaves. -/
theorem port_asked {s t : Net} {asked : List Asked} (h : run enquire s asked = some t) :
    t.port = s.port.asking asked := by
  refine asking_of_run (fun s : Net => s.port) (fun s a t ht => ?_) h
  simp only [enquire, Option.ite_none_right_eq_some, Option.some.injEq] at ht
  rw [← ht.2]
  rfl

/-- **The table after a call is the one the call leaves.** -/
theorem port_of_poll {me : Context} {s t : Net} {fds : Option (List PollFd)} {timeoutMs : Int}
    {rounds : List (ℕ → IoEnv)} (h : step me s (.poll fds timeoutMs rounds) = some t) :
    t.port = (s.port.okmPoll fds timeoutMs rounds).port := by
  rw [okmPoll_port]
  exact port_asked h

theorem port_of_select {me : Context} {s t : Net} {nfds : Int} {rd wr : Option (ℕ → Bool)}
    {timeoutMs : Int} {rounds : List (ℕ → IoEnv)}
    (h : step me s (.select nfds rd wr timeoutMs rounds) = some t) :
    t.port = (s.port.okmSelect nfds rd wr timeoutMs rounds).port := by
  rw [okmSelect_port]
  exact port_asked h

/-- **The socket table's representation holds** in every run of calls, whatever the environment
answers; and what a call closes was held by a socket whose last descriptor went, or is a connection
for which there was no descriptor or no slot. -/
theorem rep_of_reachable {me : Context} {w : PortState} (hw : Bare w) {s : Net}
    (h : Reachable (step me) (start w) s) :
    Rep s ∧ ∀ l t, step me s l = some t → ∃ got closed : List Resource,
      t.hist = s.hist ++ got.map .got ++ closed.map .gave ∧ ∀ r ∈ closed, Closed s l t r := by
  have hrep : Rep s :=
    h.invariant (rep_start hw) fun _ _ _ hu hv => (kept_step hu hv).rep
  exact ⟨hrep, fun l t hl => (kept_step hrep hl).hist⟩

/-- An environment that gives a listener, and the connection `c` with the stream `stream`. -/
def offering (c stream : Handle) : IoEnv :=
  { IoEnv.idle with
    netListen := .ok 60
    timeoutAccept := some fun _ => .ok c
    connStream := stream }

/-- A listener is polled, the connection that waits is accepted, and both sockets are closed, the
listener by its second descriptor. -/
def serving : List NetCall :=
  [.socket .granting afInet sockStream 0, .sock (offering 61 62) 3 .listen,
    .poll (some [{ fd := 3, events := pollIn }]) 0 [fun _ => offering 61 62],
    .accept { Env.granting with connStream := 62 } 3 0, .dup 3 5 false, .close 3,
      .close 4, .close 5]

theorem rep_serving :
    ∃ s, Reachable (step 1) (start (okmTableInit 1 .supplied)) s ∧
      s.hist = [.got (.listener 60), .got (.conn 61), .gave (.conn 61), .gave (.listener 60)] ∧
      Rep s := by
  have hrun : (run (step 1) (start (okmTableInit 1 .supplied)) serving).map (fun s => s.hist) =
      some [.got (.listener 60), .got (.conn 61), .gave (.conn 61), .gave (.listener 60)] := by
    decide +kernel
  obtain ⟨s, hs, hhist⟩ := Option.map_eq_some_iff.mp hrun
  have hreach : Reachable (step 1) (start (okmTableInit 1 .supplied)) s := ⟨serving, hs⟩
  exact ⟨s, hreach, hhist, (rep_of_reachable (bare_okmTableInit 1 .supplied) hreach).1⟩

end Net

end OpenkalMusl
