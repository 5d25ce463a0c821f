import OpenkalMusl.Net.Representation

/-!
# Connections that wait at a listener

A readiness enquiry of a listener accepts a connection, which waits in the listener's slot for the
`accept` that follows. The account of a run is the list of the connections that the environment gave
to an enquiry or to an `accept`, and of those that an `accept` delivered or that were closed with
the listener they waited at.

An `accept` takes the connection before it knows that there is a descriptor and a slot for it, and
closes it where there is none: the connection is then neither delivered nor waiting, whether it had
waited or was given to the call itself. Nothing else loses one.

## Main definitions

* `Accepting.step`: the calls, with the connections taken and delivered
* `Accepting.NoneLost`: what was taken and not delivered waits at one listener
* `Accepting.Roomy`: an `accept` that has a connection has a descriptor and a slot for it

## Main results

* `none_lost_while_roomy`: no connection is lost in a run whose calls have room, and one is by any
  other call; and there an `accept` that fails leaves the table as it was
* `accept_loses`: a connection that waits and is lost
-/

namespace OpenkalMusl

open Transition PortState

/-- The handle of a connection. -/
def Resource.connHandle : Resource → Option Handle
  | .conn h => some h
  | _ => none

/-- The sockets, with the connections taken from the environment, and those delivered or closed with
their listener. -/
structure Accepting where
  net : Net
  conns : List (Traffic Handle)

namespace PortState

/-- The connection of the socket a descriptor names. -/
def connOf (w : PortState) (fd : Int) : Option Handle :=
  ((w.okmDescOf fd).bind w.sockOf).bind fun slot =>
    if (w.sock slot).state = .conn then some (w.sock slot).conn else none

/-- What was closed on the way to `v`. -/
def closedBy (w v : PortState) : List Resource :=
  (v.log.drop w.log.length).filterMap Event.released

/-- The connections that waited at a listener and were closed on the way to `v`. -/
def closedWaiting (w v : PortState) : List Handle :=
  (List.finRange okmMaxSock).filterMap fun slot =>
    if (w.sock slot).pendConn = true ∧ .conn (w.sock slot).pend ∈ w.closedBy v then
      some (w.sock slot).pend
    else none

theorem closedBy_of_log {w v : PortState} {es : List Event} (h : v.log = w.log ++ es) :
    w.closedBy v = es.filterMap Event.released := by
  rw [closedBy, h, List.drop_left]

end PortState

/-- The connection of the descriptor that a call returned. -/
def Outcome.delivered (o : Outcome) : List Handle :=
  match o.result with
  | .ok fd => (o.port.connOf fd).toList
  | .error _ => []

namespace Accepting

/-- The connections among what a call obtained are taken. -/
def took (obtained : List Resource) : List (Traffic Handle) :=
  (obtained.filterMap Resource.connHandle).map .got

/-- An enquiry. -/
def enquire (s : Accepting) (a : Asked) : Option Accepting :=
  (s.net.enquire a).map fun t =>
    ⟨t, s.conns ++ took (s.net.port.waitIn a.env a.d a.ns).obtained⟩

/-- A call that takes no connection of a listener. -/
def plain (me : Context) (s : Accepting) (l : NetCall) : Option Accepting :=
  (s.net.step me l).map fun t => ⟨t, s.conns ++ (s.net.port.closedWaiting t.port).map .gave⟩

/-- One call. -/
def step (me : Context) (s : Accepting) : NetCall → Option Accepting
  | .poll fds timeoutMs rounds => run enquire s (s.net.port.okmPoll fds timeoutMs rounds).asked
  | .select nfds rd wr timeoutMs rounds =>
    run enquire s (s.net.port.okmSelect nfds rd wr timeoutMs rounds).asked
  | .accept env fd flags =>
    (s.net.step me (.accept env fd flags)).map fun t =>
      ⟨t, s.conns ++ took (s.net.acceptObtains me env fd flags) ++
        (s.net.port.okmSockAccept me env fd flags).delivered.map .gave⟩
  | l => s.plain me l

/-- A table without sockets. -/
def start (w : PortState) : Accepting where
  net := Net.start w
  conns := []

/-- The connection waits in the slot. -/
def Waits (w : PortState) (slot : Fin okmMaxSock) (c : Handle) : Prop :=
  (w.sock slot).pendConn = true ∧ (w.sock slot).pend = c

/-- **No connection is lost**: each that was taken waits at one listener, or was delivered or closed
with the listener, once. -/
def NoneLost (s : Accepting) : Prop := Owned (Waits s.net.port) s.conns

/-- An `accept` that has a connection has a descriptor and a slot for it. -/
def Roomy (s : Accepting) : NetCall → Prop
  | .accept env fd flags => (s.net.port.atHand env fd flags).isSome = true → Net.Room s.net.port
  | _ => True

instance (w : PortState) (slot : Fin okmMaxSock) (c : Handle) : Decidable (Waits w slot c) :=
  inferInstanceAs (Decidable (_ ∧ _))

instance (s : Accepting) : (l : NetCall) → Decidable (s.Roomy l)
  | .accept .. => inferInstanceAs (Decidable (_ → _))
  | .socket .. => isTrue trivial
  | .sock .. => isTrue trivial
  | .poll .. => isTrue trivial
  | .select .. => isTrue trivial
  | .dup .. => isTrue trivial
  | .close .. => isTrue trivial

/-! ## The sockets of the account -/

theorem net_enquiries {s t : Accepting} {asked : List Asked} (h : run enquire s asked = some t) :
    run Net.enquire s.net asked = some t.net := by
  induction asked generalizing s with
  | nil =>
    cases h
    rfl
  | cons a asked ih =>
    obtain ⟨u, hu, hrun⟩ := run_cons.mp h
    obtain ⟨v, hv, rfl⟩ := Option.map_eq_some_iff.mp hu
    exact run_cons.mpr ⟨v, hv, ih hrun⟩

theorem net_plain {me : Context} {s t : Accepting} {l : NetCall} (h : s.plain me l = some t) :
    Net.step me s.net l = some t.net := by
  obtain ⟨v, hv, rfl⟩ := Option.map_eq_some_iff.mp h
  exact hv

/-- **A call of the account is a call.** -/
theorem net_step {me : Context} {s t : Accepting} {l : NetCall} (h : step me s l = some t) :
    Net.step me s.net l = some t.net := by
  cases l with
  | poll fds timeoutMs rounds => exact net_enquiries h
  | select nfds rd wr timeoutMs rounds => exact net_enquiries h
  | accept env fd flags =>
    obtain ⟨v, hv, rfl⟩ := Option.map_eq_some_iff.mp h
    exact hv
  | socket env domain type protocol => exact net_plain h
  | sock env fd call => exact net_plain h
  | dup fd newfd cloexec => exact net_plain h
  | close fd => exact net_plain h

/-- A connection that waits is held by its slot. -/
theorem holds_pend {w : PortState} {slot : Fin okmMaxSock} {c : Handle} (h : Waits w slot c) :
    Net.Holds w slot (.conn c) := by
  simp [Net.Holds, Sock.holds, h.1, h.2]

/-- A connection that the environment gives is none that was taken and not delivered. -/
theorem not_mem_holding {s : Accepting} (hrep : s.net.Rep) (h : s.NoneLost) {c : Handle}
    (hc : .conn c ∉ s.net.held) : c ∉ Traffic.holding s.conns := by
  intro hmem
  obtain ⟨slot, hw, -⟩ := h.one c hmem
  exact hc (hrep.owned.held slot _ (holds_pend hw))

/-! ## What the calls do to the connections that wait -/

theorem took_singleton (c : Handle) : took [.conn c] = [.got c] := rfl

/-- An object that a socket obtains for itself is no connection that waits. -/
theorem pendConn_of_gains {s s' : Sock} {r : Resource} (h : Gains False s s' r) (hs : s.Apt) :
    s.pendConn = false ∧ s'.pendConn = false := by
  cases h with
  | datagram new state pendConn =>
    exact ⟨Gains.pendConn_of_new hs new, pendConn.trans (Gains.pendConn_of_new hs new)⟩
  | listener new state pendConn pendMsg =>
    exact ⟨Gains.pendConn_of_new hs new, pendConn.trans (Gains.pendConn_of_new hs new)⟩
  | conn new state pendConn pendMsg =>
    exact ⟨Gains.pendConn_of_new hs new, pendConn.trans (Gains.pendConn_of_new hs new)⟩
  | pending asked listen none_ state lis pendConn pendMsg => exact asked.elim

/-- A slot keeps the connection that waits there, which is not closed, or the connection
is closed. -/
def KeepsWaiting (closed : List Resource) (s s' : Sock) : Prop :=
  (s'.pendConn = s.pendConn ∧ (s.pendConn = true → s'.pend = s.pend ∧ .conn s.pend ∉ closed)) ∨
    (s'.pendConn = false ∧ (s.pendConn = true → .conn s.pend ∈ closed))

theorem keepsWaiting_same {s s' : Sock} (h : SameObject s s') {closed : List Resource}
    (hopen : s.pendConn = true → .conn s.pend ∉ closed) : KeepsWaiting closed s s' :=
  Or.inl ⟨h.pendConn, fun hp => ⟨h.pend, hopen hp⟩⟩

/-- A slot where no connection waits. -/
theorem keepsWaiting_none {s s' : Sock} (h : s.pendConn = false) (h' : s'.pendConn = false)
    (closed : List Resource) : KeepsWaiting closed s s' := by
  refine Or.inl ⟨h'.trans h.symm, fun hp => ?_⟩
  rw [h] at hp
  cases hp

theorem mem_closedWaiting {w v : PortState} {c : Handle} :
    c ∈ w.closedWaiting v ↔ (∃ slot, Waits w slot c) ∧ .conn c ∈ w.closedBy v := by
  simp only [closedWaiting, List.mem_filterMap, List.mem_finRange, true_and,
    Option.ite_none_right_eq_some, Option.some.injEq, Waits]
  constructor
  · rintro ⟨slot, ⟨hp, hclosed⟩, rfl⟩
    exact ⟨⟨slot, hp, rfl⟩, hclosed⟩
  · rintro ⟨⟨slot, hp, rfl⟩, hclosed⟩
    exact ⟨slot, ⟨hp, hclosed⟩, rfl⟩

/-- **A call that takes no connection** loses none. -/
theorem noneLost_plain {s : Accepting} (h : s.NoneLost) {t : Net}
    (hslots : ∀ slot, KeepsWaiting (s.net.port.closedBy t.port) (s.net.port.sock slot)
      (t.port.sock slot)) :
    NoneLost ⟨t, s.conns ++ (s.net.port.closedWaiting t.port).map .gave⟩ := by
  refine Owned.revokeAll h ?_ (fun c hc => ?_) fun slot c => ?_
  · -- two slots do not keep one connection
    refine List.Nodup.filterMap ?_ (List.nodup_finRange _)
    intro slot slot' c hc hc'
    simp only [Option.mem_def, Option.ite_none_right_eq_some, Option.some.injEq] at hc hc'
    have hw : Waits s.net.port slot c := ⟨hc.1.1, hc.2⟩
    have hw' : Waits s.net.port slot' c := ⟨hc'.1.1, hc'.2⟩
    exact h.unique hw hw'
  · obtain ⟨⟨slot, hw⟩, -⟩ := mem_closedWaiting.mp hc
    exact h.held slot c hw
  · rw [mem_closedWaiting]
    show Waits t.port slot c ↔ _
    rcases hslots slot with ⟨hsame, hkeep⟩ | ⟨hnone, hclosed⟩
    · unfold Waits
      rw [hsame]
      constructor
      · rintro ⟨hp, hc⟩
        obtain ⟨hpend, hopen⟩ := hkeep hp
        rw [hpend] at hc
        rw [hc] at hopen
        exact ⟨⟨hp, hc⟩, fun hgone => hopen hgone.2⟩
      · rintro ⟨⟨hp, hc⟩, -⟩
        exact ⟨hp, (hkeep hp).1.trans hc⟩
    · constructor
      · rintro ⟨hp, -⟩
        rw [hnone] at hp
        cases hp
      · rintro ⟨hw, hno⟩
        have hgone := hclosed hw.1
        rw [hw.2] at hgone
        exact absurd ⟨⟨slot, hw⟩, hgone⟩ hno

/-- **An enquiry** keeps what it takes. -/
theorem noneLost_enquire {s t : Accepting} (hrep : s.net.Rep) (h : s.NoneLost) {a : Asked}
    (ht : s.enquire a = some t) : t.NoneLost := by
  obtain ⟨v, hv, rfl⟩ := Option.map_eq_some_iff.mp ht
  simp only [Net.enquire, Option.ite_none_right_eq_some, Option.some.injEq] at hv
  obtain ⟨hfresh, rfl⟩ := hv
  have hw := waited_waitIn s.net.port a.env a.d a.ns
  unfold NoneLost
  generalize s.net.port.waitIn a.env a.d a.ns = q at hw hfresh ⊢
  show Owned (Waits q.port) (s.conns ++ took q.obtained)
  have hsame : (∀ slot c, Waits q.port slot c ↔ Waits s.net.port slot c) → q.obtained = [] →
      Owned (Waits q.port) (s.conns ++ took q.obtained) := by
    intro hiff hnone
    rw [hnone, show s.conns ++ took [] = s.conns from List.append_nil _]
    exact h.congr hiff
  -- a slot that changes keeps what waits there
  have hslot : ∀ slot s', s'.pendConn = (s.net.port.sock slot).pendConn →
      s'.pend = (s.net.port.sock slot).pend → ∀ e c,
        Waits (s.net.port.setSlot slot s') e c ↔ Waits s.net.port e c := by
    intro slot s' hp hq e c
    unfold Waits
    rcases eq_or_ne e slot with rfl | hne
    · rw [setSlot_sock, hp, hq]
    · rw [Net.setSlot_of_ne _ hne]
  cases hw with
  | same result => exact hsame (fun _ _ => Iff.rfl) rfl
  | byte b hnone => exact hsame (fun _ _ => Iff.rfl) rfl
  | eof hnone => exact hsame (fun _ _ => Iff.rfl) rfl
  | buf slot result hs hdgram hnone => exact hsame (hslot slot _ rfl rfl) rfl
  | message slot m hs hdgram hnone =>
    refine hsame (fun e c => ?_) rfl
    show Waits ((s.net.port.obtainBuf slot).keepMessage slot m) e c ↔ _
    rw [keepMessage_obtainBuf]
    refine hslot slot _ ?_ ?_ e c
    · rfl
    · rfl
  | conn slot c hs hlisten hnone =>
    have hc := hfresh (.conn c) (List.mem_singleton_self _)
    refine Owned.grant (o := slot) h (not_mem_holding hrep h hc) fun e x => ?_
    unfold Waits keepConn
    rcases eq_or_ne e slot with rfl | hne
    · rw [setSlot_sock, hnone]
      simp [eq_comm]
    · rw [Net.setSlot_of_ne _ hne]
      simp [hne]

theorem noneLost_enquiries {s t : Accepting} (hrep : s.net.Rep) (h : s.NoneLost)
    {asked : List Asked} (hrun : run enquire s asked = some t) : t.NoneLost := by
  have hreach : Reachable enquire s t := ⟨asked, hrun⟩
  have hboth : t.net.Rep ∧ t.NoneLost := by
    refine hreach.invariant (I := fun u => u.net.Rep ∧ u.NoneLost) ⟨hrep, h⟩ ?_
    rintro u a v ⟨hu, hu'⟩ hv
    refine ⟨?_, noneLost_enquire hu hu' hv⟩
    have hone : run Net.enquire u.net [a] = some v.net :=
      net_enquiries (s := u) (t := v) (run_cons.mpr ⟨v, hv, rfl⟩)
    exact (Net.kept_enquiries hu (.close 0) hone).rep
  exact hboth.2

/-- A socket that is placed keeps no connection that waits. -/
theorem keepsWaiting_placed {w v : PortState} {d : Fin okmMaxDesc} {slot : Fin okmMaxSock}
    {stream : Handle} {s' : Sock} (hp : Net.Placed w v d slot stream s')
    (hapt : (w.sock slot).Apt) (hs' : s'.pendConn = false) (e : Fin okmMaxSock) :
    KeepsWaiting (w.closedBy v) (w.sock e) (v.sock e) := by
  rw [hp.sock]
  rcases eq_or_ne e slot with rfl | hne
  · rw [Function.update_self]
    exact keepsWaiting_none (Net.pendConn_of_free hapt hp.slotFree) hs' _
  · rw [Function.update_of_ne hne, closedBy_of_log hp.log]
    exact keepsWaiting_same (.refl _) fun _ => nofun

/-- Nothing is closed where nothing is recorded. -/
theorem closedBy_same {w v : PortState} (h : v.log = w.log) : w.closedBy v = [] := by
  have hnone : v.log = w.log ++ [] := by rw [h, List.append_nil]
  exact closedBy_of_log hnone

/-- A socket that is made. -/
theorem keepsWaiting_okmSockOpen {w : PortState} (hexact : w.Exact) (hset : w.settling = [])
    (hapt : ∀ e, (w.sock e).Apt) (me : Context) (env : Env) (domain : Int) (type : ℕ)
    (protocol : Int) (e : Fin okmMaxSock) :
    KeepsWaiting (w.closedBy (w.okmSockOpen me env domain type protocol).port) (w.sock e)
      ((w.okmSockOpen me env domain type protocol).port.sock e) := by
  have hrefl : KeepsWaiting (w.closedBy w) (w.sock e) (w.sock e) := by
    rw [closedBy_same rfl]
    exact keepsWaiting_same (.refl _) fun _ => nofun
  unfold okmSockOpen
  simp only
  split_ifs
  · exact hrefl
  · exact hrefl
  · exact hrefl
  · exact hrefl
  · exact hrefl
  · unfold sockOpen finishPlain
    rcases Net.bindSock_cases hexact hset me 0 (oRdwr ||| sockFlags type) (fun s => { s with
        domain := domain, type := otherFlags type (sockCloexec ||| sockNonblock),
        protocol := protocol }) with ⟨-, err, hb⟩ | ⟨-, v, f, d, slot, hb, -, hp⟩
    · rw [hb, leave_of_settled hset]
      exact hrefl
    · rw [hb, leave_of_settled hp.settled]
      exact keepsWaiting_placed hp (hapt slot) rfl e

/-- A call on a socket. -/
theorem keepsWaiting_mild {w v : PortState} {stream : Handle} {obtained : List Resource}
    (h : Net.Mild False stream w v obtained) (hapt : ∀ e, (w.sock e).Apt) (e : Fin okmMaxSock) :
    KeepsWaiting (w.closedBy v) (w.sock e) (v.sock e) := by
  rw [closedBy_same h.log]
  cases h.touched with
  | still hs => exact keepsWaiting_same (hs.slots e) fun _ => nofun
  | @gained r d slot hg =>
    rcases eq_or_ne e slot with rfl | hne
    · obtain ⟨hno, hno'⟩ := pendConn_of_gains hg.gains (hapt e)
      exact keepsWaiting_none hno hno' _
    · exact keepsWaiting_same (hg.slots e hne) fun _ => nofun

/-- A description gives back a connection that its socket's slot holds. -/
theorem mem_gives_conn {w : PortState} {d : Fin okmMaxDesc} {c : Handle} :
    .conn c ∈ w.gives (w.desc d) ↔ ∃ slot, w.sockOf d = some slot ∧ Net.Holds w slot (.conn c) := by
  constructor
  · intro h
    cases hk : (w.desc d).kind with
    | socket =>
      cases hs : (w.desc d).sock with
      | none => simp [gives, hk, hs] at h
      | some slot => exact ⟨slot, by simp [sockOf, hk, hs],
        by simpa [gives, hk, hs, Net.Holds] using h⟩
    | _ => simp [gives, hk] at h
  · rintro ⟨slot, hs, h⟩
    obtain ⟨hk, hslot⟩ : (w.desc d).kind = .socket ∧ (w.desc d).sock = some slot := by
      simpa [sockOf] using hs
    simp only [gives, hk, hslot]
    exact h

/-- A descriptor that is taken from what it named. -/
theorem keepsWaiting_released {s : Net} (h : s.Rep) {v : PortState}
    (hr : Net.Released s.port v) (e : Fin okmMaxSock) :
    KeepsWaiting (s.port.closedBy v) (s.port.sock e) (v.sock e) := by
  cases hr with
  | still same log =>
    rw [closedBy_same log]
    exact keepsWaiting_same (same.slots e) fun _ => nofun
  | @emptied x u d before log empty one same log' =>
    obtain ⟨es, hes, hgives⟩ := empty.log
    have hlog : v.log = s.port.log ++ es := by rw [log', hes, log]
    have hholds : ∀ slot r, Net.Holds x slot r ↔ Net.Holds s.port slot r := by
      intro slot r
      unfold Net.Holds
      rw [(before.slots slot).holds]
    rw [closedBy_of_log hlog, hgives]
    by_cases hd : x.sockOf d = some e
    · -- its own slot is free now, and what waited there was closed
      refine Or.inr ⟨?_, fun hp => ?_⟩
      · rw [(same.slots e).pendConn, Net.sock_emptied empty hd, Function.update_self]
        rfl
      · exact mem_gives_conn.mpr ⟨e, hd, (hholds e _).mpr (holds_pend ⟨hp, rfl⟩)⟩
    · have hmid : u.sock e = x.sock e := Net.sock_emptied_ne empty hd
      have hlast := same.slots e
      rw [hmid] at hlast
      refine keepsWaiting_same ((before.slots e).trans hlast) fun hp hgone => ?_
      -- another slot does not hold what waits here
      obtain ⟨slot, hs, hheld⟩ := mem_gives_conn.mp hgone
      obtain rfl : slot = e := h.owned.unique ((hholds slot _).mp hheld) (holds_pend ⟨hp, rfl⟩)
      exact hd hs

/-! ## `accept` -/

theorem waits_placed {w v : PortState} {d : Fin okmMaxDesc} {slot : Fin okmMaxSock}
    {stream : Handle} {s' : Sock} (hp : Net.Placed w v d slot stream s')
    (hapt : (w.sock slot).Apt) (hs' : s'.pendConn = false) (e : Fin okmMaxSock) (c : Handle) :
    Waits v e c ↔ Waits w e c := by
  unfold Waits
  rw [hp.sock]
  rcases eq_or_ne e slot with rfl | hne
  · rw [Function.update_self, hs', Net.pendConn_of_free hapt hp.slotFree]
    simp
  · rw [Function.update_of_ne hne]

/-- The connection that waits in a slot is taken from it. -/
theorem waits_takePending {s : Accepting} (h : s.NoneLost) {slot : Fin okmMaxSock} {c : Handle}
    (hw : Waits s.net.port slot c) (e : Fin okmMaxSock) (x : Handle) :
    Waits (s.net.port.takePending slot) e x ↔ Waits s.net.port e x ∧ x ≠ c := by
  rcases eq_or_ne e slot with rfl | hne
  · unfold Waits
    rw [Net.takePending_eq, setSlot_sock]
    refine ⟨nofun, ?_⟩
    rintro ⟨⟨-, hx⟩, hxc⟩
    exact absurd (hx.symm.trans hw.2) hxc
  · have hother : Waits (s.net.port.takePending slot) e x ↔ Waits s.net.port e x := by
      unfold Waits
      rw [Net.takePending_eq, Net.setSlot_of_ne _ hne]
    rw [hother]
    refine ⟨fun hx => ⟨hx, ?_⟩, And.left⟩
    rintro rfl
    exact hne (h.unique hx hw)

/-- What a call delivers is the connection of the socket it placed. -/
theorem delivered_placed {o : Outcome} {w : PortState} {f : ℕ} {d : Fin okmMaxDesc}
    {slot : Fin okmMaxSock} {stream : Handle} {s' : Sock} (hres : o.result = .ok f)
    (hf : o.port.okmDescOf f = some d) (hp : Net.Placed w o.port d slot stream s')
    (hs' : s'.state = .conn) : o.delivered = [s'.conn] := by
  have hslot : o.port.sockOf d = some slot := by rw [Net.sockOf_placed hp, if_pos rfl]
  have hat : o.port.sock slot = s' := by rw [hp.sock, Function.update_self]
  have hconn : o.port.connOf f = some s'.conn := by
    rw [connOf, hf, Option.bind_some, hslot, Option.bind_some, hat, if_pos hs']
  unfold Outcome.delivered
  rw [hres]
  simp only [hconn, Option.toList_some]

theorem delivered_of_error {o : Outcome} {e : Errno} (h : o.result = .error e) :
    o.delivered = [] := by
  unfold Outcome.delivered
  rw [h]

/-- **An `accept` of a connection that waits** keeps the account where there is room, and nowhere
else. -/
theorem noneLost_pending {s : Accepting} (hrep : s.net.Rep) (h : s.NoneLost)
    {slot : Fin okmMaxSock} {c : Handle} (hw : Waits s.net.port slot c) (me : Context) (env : Env)
    (flags : ℕ) :
    Owned (Waits ((s.net.port.takePending slot).acceptConn me env c flags).port)
        (s.conns ++ ((s.net.port.takePending slot).acceptConn me env c flags).delivered.map .gave) ↔
      Net.Room s.net.port := by
  have hexact : (s.net.port.takePending slot).Exact := fun d => hrep.exact d
  have hheld : c ∈ Traffic.holding s.conns := h.held slot c hw
  have hgone := waits_takePending h hw
  rw [← Net.room_takePending s.net.port slot]
  rcases Net.acceptConn_cases hexact hrep.settled me env c flags with
    ⟨hno, ⟨e, hres⟩, hport⟩ | ⟨hroom, f, d, slot', hres, hf, hp⟩
  · refine ⟨fun hown => ?_, fun hroom => absurd hroom hno⟩
    -- it is held, and waits nowhere
    rw [delivered_of_error hres, List.map_nil, List.append_nil, hport] at hown
    obtain ⟨e, he, -⟩ := hown.one c hheld
    exact absurd rfl ((hgone e c).mp he).2
  · refine ⟨fun _ => hroom, fun _ => ?_⟩
    rw [delivered_placed hres hf hp rfl]
    refine (h.revoke hheld).congr fun e x => ?_
    rw [waits_placed hp ((Net.shape_takePending hrep slot).apt slot') rfl, hgone]

/-- **An `accept` of a connection that the environment gives** keeps the account where there is
room, and nowhere else. -/
theorem noneLost_fresh {s : Accepting} (hrep : s.net.Rep) (h : s.NoneLost) {c : Handle}
    (hc : .conn c ∉ s.net.held) (me : Context) (env : Env) (flags : ℕ) :
    Owned (Waits (s.net.port.acceptConn me env c flags).port)
        (s.conns ++ [.got c] ++ (s.net.port.acceptConn me env c flags).delivered.map .gave) ↔
      Net.Room s.net.port := by
  have hnew : c ∉ Traffic.holding s.conns := not_mem_holding hrep h hc
  rcases Net.acceptConn_cases hrep.exact hrep.settled me env c flags with
    ⟨hno, ⟨e, hres⟩, hport⟩ | ⟨hroom, f, d, slot, hres, hf, hp⟩
  · refine ⟨fun hown => ?_, fun hroom => absurd hroom hno⟩
    -- it is held now, and waits nowhere
    rw [delivered_of_error hres, List.map_nil, List.append_nil, hport] at hown
    obtain ⟨e, he, -⟩ := hown.one c (by rw [Traffic.holding_got]; exact Finset.mem_insert_self _ _)
    exact absurd (h.held e c he) hnew
  · refine ⟨fun _ => hroom, fun _ => ?_⟩
    rw [delivered_placed hres hf hp rfl]
    exact (Owned.pass h hnew).congr (waits_placed hp (hrep.shape.apt slot) rfl)

/-- **`accept`** loses no connection where it has room for the one it has, and loses it anywhere
else. -/
theorem noneLost_accept {me : Context} {s t : Accepting} (hrep : s.net.Rep) (h : s.NoneLost)
    {env : Env} {fd : Int} {flags : ℕ} (ht : step me s (.accept env fd flags) = some t) :
    t.NoneLost ↔ s.Roomy (.accept env fd flags) := by
  obtain ⟨v, hv, rfl⟩ := Option.map_eq_some_iff.mp ht
  simp only [Net.step, Option.ite_none_right_eq_some, Option.some.injEq] at hv
  obtain ⟨⟨hfresh, -⟩, rfl⟩ := hv
  show Owned (Waits (s.net.port.okmSockAccept me env fd flags).port) _ ↔
    ((s.net.port.atHand env fd flags).isSome = true → Net.Room s.net.port)
  unfold Net.acceptObtains at hfresh ⊢
  rcases Net.okmSockAccept_cases s.net.port me env fd flags with ⟨hnone, e, he⟩ |
    ⟨slot, c, -, -, hhand, ⟨hpending, hpend, hc, he⟩ | ⟨hnone, he⟩⟩
  · rw [he, hnone]
    refine ⟨fun _ h => ?_, fun _ => ?_⟩
    · cases h
    have hobt : (if s.net.port.pendingOf fd = none
        then (s.net.port.fail e).obtained else []) = [] :=
      ite_self []
    have hsame : s.conns ++ took [] ++ (s.net.port.fail e).delivered.map .gave = s.conns := by
      simp [took, fail, Outcome.delivered]
    rw [hobt, hsame]
    exact h
  · have hnil : s.conns ++ took [] = s.conns := List.append_nil _
    have hne : s.net.port.pendingOf fd ≠ none := by
      rw [hpending]
      exact Option.some_ne_none c
    rw [he, hhand, if_neg hne, hnil, noneLost_pending hrep h ⟨hpend, hc⟩]
    exact ⟨fun hroom _ => hroom, fun hroom => hroom rfl⟩
  · rw [he, if_pos hnone, Net.acceptConn_obtained] at hfresh ⊢
    rw [hhand, took_singleton, noneLost_fresh hrep h (hfresh _ (List.mem_singleton_self _))]
    exact ⟨fun hroom _ => hroom, fun hroom => hroom rfl⟩

/-- **What an `accept` answers**: where it has a connection and room for it, that connection is
delivered; where it has none, it fails and the table is as it was. -/
theorem result_okmSockAccept {s : Net} (h : s.Rep) (me : Context) (env : Env) (fd : Int)
    (flags : ℕ) :
    (∃ e, s.port.atHand env fd flags = none ∧
        (s.port.okmSockAccept me env fd flags).result = .error e ∧
        (s.port.okmSockAccept me env fd flags).port = s.port) ∨
      ∃ c, s.port.atHand env fd flags = some c ∧ (Net.Room s.port →
        (∃ f, (s.port.okmSockAccept me env fd flags).result = .ok f) ∧
          (s.port.okmSockAccept me env fd flags).delivered = [c]) := by
  have hplaces : ∀ {w : PortState} {c : Handle}, w.Exact → w.settling = [] → Net.Room w →
      (∃ f, (w.acceptConn me env c flags).result = .ok f) ∧
        (w.acceptConn me env c flags).delivered = [c] := by
    intro w c hexact hset hroom
    rcases Net.acceptConn_cases hexact hset me env c flags with
      ⟨hno, -, -⟩ | ⟨-, f, d, slot, hres, hf, hp⟩
    · exact absurd hroom hno
    · exact ⟨⟨f, hres⟩, delivered_placed hres hf hp rfl⟩
  rcases Net.okmSockAccept_cases s.port me env fd flags with ⟨hnone, e, he⟩ |
    ⟨slot, c, -, -, hhand, ⟨-, -, -, he⟩ | ⟨-, he⟩⟩
  · rw [he]
    exact Or.inl ⟨e, hnone, rfl, rfl⟩
  · refine Or.inr ⟨c, hhand, fun hroom => ?_⟩
    rw [he]
    have hexact : (s.port.takePending slot).Exact := fun d => h.exact d
    exact hplaces hexact h.settled ((Net.room_takePending s.port slot).mpr hroom)
  · refine Or.inr ⟨c, hhand, fun hroom => ?_⟩
    rw [he]
    exact hplaces h.exact h.settled hroom

/-! ## Runs -/

/-- **One call** loses no connection where it has room for the one it has, and nowhere else. -/
theorem noneLost_step {me : Context} {s t : Accepting} (hrep : s.net.Rep) (h : s.NoneLost)
    {l : NetCall} (ht : step me s l = some t) : t.NoneLost ↔ s.Roomy l := by
  have hplain : ∀ {l}, s.plain me l = some t → (∀ v, Net.step me s.net l = some v →
      ∀ e, KeepsWaiting (s.net.port.closedBy v.port) (s.net.port.sock e) (v.port.sock e)) →
        t.NoneLost := by
    intro l ht hslots
    obtain ⟨v, hv, rfl⟩ := Option.map_eq_some_iff.mp ht
    exact noneLost_plain h (hslots v hv)
  cases l with
  | accept env fd flags => exact noneLost_accept hrep h ht
  | poll fds timeoutMs rounds => exact iff_of_true (noneLost_enquiries hrep h ht) trivial
  | select nfds rd wr timeoutMs rounds =>
    exact iff_of_true (noneLost_enquiries hrep h ht) trivial
  | socket env domain type protocol =>
    refine iff_of_true (hplain ht fun v hv => ?_) trivial
    cases hv
    exact keepsWaiting_okmSockOpen hrep.exact hrep.settled hrep.shape.apt me env domain
      type protocol
  | sock env fd call =>
    refine iff_of_true (hplain ht fun v hv => ?_) trivial
    simp only [Net.step, Option.ite_none_right_eq_some, Option.some.injEq] at hv
    obtain ⟨-, rfl⟩ := hv
    exact keepsWaiting_mild (Net.mild_run env hrep.shape.apt fd call) hrep.shape.apt
  | dup fd newfd cloexec =>
    refine iff_of_true (hplain ht fun v hv => ?_) trivial
    cases hv
    exact keepsWaiting_released hrep
      (Net.released_doDup hrep.exact hrep.settled me fd newfd cloexec).1
  | close fd =>
    refine iff_of_true (hplain ht fun v hv => ?_) trivial
    cases hv
    exact keepsWaiting_released hrep (Net.released_doClose hrep.exact hrep.settled me fd).1

theorem noneLost_start {w : PortState} (h : Net.Bare w) : (start w).NoneLost := by
  refine ⟨nofun, fun slot c hw => ?_, History.always_nil _⟩
  have hno : (w.sock slot).pendConn = false := (h.slot slot).2.1
  rw [Waits, show (start w).net.port.sock slot = w.sock slot from rfl, hno] at hw
  cases hw.1

/-- **No connection is lost while there is room.** In a run whose `accept`s have a descriptor and a
slot for the connection they have, each connection that was taken waits at one listener, or was
delivered or closed with the listener, once; the next call keeps this exactly where it has room too;
and there an `accept` that has a connection delivers it, and one that fails leaves the table, and
what waits in it, as it was. -/
theorem none_lost_while_roomy {me : Context} {w : PortState} (hw : Net.Bare w) {s : Accepting}
    (h : Reachable (restrict (step me) Roomy) (start w) s) :
    s.NoneLost ∧ (∀ l t, step me s l = some t → (t.NoneLost ↔ s.Roomy l)) ∧
      ∀ env fd flags, s.Roomy (.accept env fd flags) →
        (∀ c, s.net.port.atHand env fd flags = some c →
          (∃ f, (s.net.port.okmSockAccept me env fd flags).result = .ok f) ∧
            (s.net.port.okmSockAccept me env fd flags).delivered = [c]) ∧
        ∀ e, (s.net.port.okmSockAccept me env fd flags).result = .error e →
          (s.net.port.okmSockAccept me env fd flags).port = s.net.port := by
  have hinv : s.net.Rep ∧ s.NoneLost := by
    refine h.invariant (I := fun u => u.net.Rep ∧ u.NoneLost)
      ⟨Net.rep_start hw, noneLost_start hw⟩ ?_
    rintro u l v ⟨hrep, hlost⟩ hv
    obtain ⟨hroomy, hstep⟩ := restrict_eq_some.mp hv
    exact ⟨(Net.kept_step hrep (net_step hstep)).rep, (noneLost_step hrep hlost hstep).mpr hroomy⟩
  obtain ⟨hrep, hlost⟩ := hinv
  refine ⟨hlost, fun l t => noneLost_step hrep hlost, fun env fd flags hroomy => ?_⟩
  rcases result_okmSockAccept hrep me env fd flags with ⟨e, hnone, -, hport⟩ | ⟨c, hhand, hok⟩
  · refine ⟨fun c hc => ?_, fun _ _ => hport⟩
    rw [hnone] at hc
    cases hc
  · obtain ⟨⟨f, hres⟩, hdel⟩ := hok (hroomy (by rw [hhand]; rfl))
    refine ⟨fun c' hc' => ?_, fun e he => ?_⟩
    · rw [hhand] at hc'
      cases hc'
      exact ⟨⟨f, hres⟩, hdel⟩
    · rw [hres] at he
      cases he

theorem none_lost_serving :
    ∃ s, Reachable (restrict (step 1) Roomy) (start (okmTableInit 1 .supplied)) s ∧
      s.conns = [.got 61, .gave 61] ∧ s.NoneLost := by
  have hrun : (run (restrict (step 1) Roomy) (start (okmTableInit 1 .supplied)) Net.serving).map
      (fun s => s.conns) = some [.got 61, .gave 61] := by
    decide +kernel
  obtain ⟨s, hs, hconns⟩ := Option.map_eq_some_iff.mp hrun
  have hreach : Reachable (restrict (step 1) Roomy) (start (okmTableInit 1 .supplied)) s :=
    ⟨Net.serving, hs⟩
  exact ⟨s, hreach, hconns, (none_lost_while_roomy (Net.bare_okmTableInit 1 .supplied) hreach).1⟩

/-! ## A connection that is lost -/

/-- The table whose descriptors but the first are the null device's, each with a description of its
own. -/
def crowd (w : PortState) : PortState :=
  { w with
    fd := fun f => if f.val = 0 then {} else { desc := some ⟨f.val, f.isLt⟩ }
    desc := fun d => { w.desc d with
      refs := if d.val = 0 then 0 else 1
      kind := if d.val = 0 then .free else .null } }

section Crowd

variable (w : PortState)

theorem named_crowd (f : Fin okmMaxFd) (d : Fin okmMaxDesc) :
    (crowd w).named f = some d ↔ d.val ≠ 0 ∧ f.val = d.val := by
  show (if f.val = 0 then {} else { desc := some ⟨f.val, f.isLt⟩ } : FdSlot).desc = some d ↔ _
  split_ifs with hf
  · constructor
    · nofun
    · rintro ⟨hd, hfd⟩
      exact absurd (hfd.symm.trans hf) hd
  · simp only [Option.some.injEq, Fin.ext_iff]
    constructor
    · intro hfd
      exact ⟨fun hd => hf (hfd.trans hd), hfd⟩
    · exact And.right

theorem occ_crowd (d : Fin okmMaxDesc) :
    Occupancy.occ (crowd w).named d = if d.val = 0 then 0 else 1 := by
  split_ifs with hd
  · rw [Occupancy.occ_eq_zero_iff]
    exact fun f hf => ((named_crowd w f d).mp hf).1 hd
  · rw [Occupancy.occ, Finset.card_eq_one]
    refine ⟨⟨d.val, d.isLt⟩, Finset.ext fun f => ?_⟩
    rw [Finset.mem_filter, Finset.mem_singleton, named_crowd, Fin.ext_iff]
    exact ⟨fun hf => hf.2.2, fun hf => ⟨Finset.mem_univ f, hd, hf⟩⟩

theorem crowd_refs (d : Fin okmMaxDesc) :
    ((crowd w).desc d).refs = if d.val = 0 then 0 else 1 := rfl

theorem crowd_kind (d : Fin okmMaxDesc) :
    ((crowd w).desc d).kind = if d.val = 0 then .free else .null := rfl

theorem bare_crowd {w : PortState} (h : Net.Bare w) : Net.Bare (crowd w) := by
  refine ⟨fun d => ?_, h.settled, fun d => ?_, h.slot⟩
  · rw [occ_crowd, crowd_refs, crowd_kind]
    split_ifs <;> simp
  · rw [crowd_kind]
    split_ifs <;> nofun

end Crowd

/-- A table whose descriptors but the first are in use. -/
def crowded : PortState := crowd (okmTableInit 1 .supplied)

/-- A listener is made, and a connection waits at it. -/
def waiting : List NetCall :=
  [.socket .granting afInet sockStream 0, .sock (Net.offering 61 62) 0 .listen,
    .poll (some [{ fd := 0, events := pollIn }]) 0 [fun _ => Net.offering 61 62]]

/-- The `accept` that follows. -/
def taking : NetCall := .accept { Env.granting with connStream := 62 } 0 0

/-- **A connection is lost**: it waits at a listener, the `accept` that follows fails for want of a
descriptor, and the connection waits nowhere and was not delivered. -/
theorem accept_loses :
    Net.Bare crowded ∧ ∃ s t, run (step 1) (start crowded) waiting = some s ∧
      (∃ slot, Waits s.net.port slot 61) ∧ step 1 s taking = some t ∧
      (s.net.port.okmSockAccept 1 { Env.granting with connStream := 62 } 0 0).result =
        .error .emfile ∧
      t.conns = [.got 61] ∧ (∀ slot, ¬ Waits t.net.port slot 61) ∧ ¬ t.NoneLost := by
  obtain ⟨s, hs⟩ := Option.isSome_iff_exists.mp
    (show (run (step 1) (start crowded) waiting).isSome = true by decide +kernel)
  obtain ⟨t, ht⟩ := Option.isSome_iff_exists.mp
    (show (run (step 1) (start crowded) (waiting ++ [taking])).isSome = true by decide +kernel)
  have hwaits : ∃ slot, Waits s.net.port slot 61 :=
    of_decide_eq_true (observe hs (fun s => decide (∃ slot, Waits s.net.port slot 61))
      (by decide +kernel))
  have hres : (s.net.port.okmSockAccept 1 { Env.granting with connStream := 62 } 0 0).result =
      .error .emfile :=
    observe hs (fun s => (s.net.port.okmSockAccept 1
      { Env.granting with connStream := 62 } 0 0).result) (by decide +kernel)
  have hconns : t.conns = [.got 61] := observe ht (fun t => t.conns) (by decide +kernel)
  have hnowhere : ∀ slot, ¬ Waits t.net.port slot 61 :=
    of_decide_eq_true (observe ht (fun t => decide (∀ slot, ¬ Waits t.net.port slot 61))
      (by decide +kernel))
  have hstep : step 1 s taking = some t := by
    obtain ⟨u, hu, hlast⟩ := run_append.mp ht
    rw [hs] at hu
    cases hu
    obtain ⟨v, hv, hnil⟩ := run_cons.mp hlast
    cases hnil
    exact hv
  refine ⟨bare_crowd (Net.bare_okmTableInit 1 .supplied), s, t, hs, hwaits, hstep, hres, hconns,
    hnowhere, fun h => ?_⟩
  -- it was taken and not delivered, so it would wait at a listener
  obtain ⟨slot, hslot, -⟩ := h.one 61 (by rw [hconns]; decide)
  exact hnowhere slot hslot

end Accepting

end OpenkalMusl
