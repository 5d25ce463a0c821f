import OpenkalMusl.Input.Conservation
import OpenkalMusl.Net.Accepting
import OpenkalMusl.Spawn.Children

/-!
# Input and `fork`

`__okm_fork` copies the program's memory, and with it what a readiness enquiry took and no call has
delivered yet: the byte of a description, the message and the connection of a socket's slot. The
environment's streams, sockets and listeners are shared by the two programs, and what is held is
not: the original delivers it, and the copy delivers it again.

The account of one program says what it took of each stream, datagram socket and listener, and what
became of it, in order, so that a byte, a message or a connection is named by where it was taken and
by how many were taken there before it. In a state with a copy there are two such accounts, which
continue the one that the original had at the `fork`.

## Main definitions

* `okmFork`: the call
* `Receiving.step`: `poll`, `select`, `read`, `readv`, `recv` and `accept`, with their account
* `Forking.step`: the calls of the original and of the copy, in any order
* `Forking.OnceEach`: nothing that was taken before the `fork` is delivered twice
* `Forking.HoldsNone`: a `fork` is called where nothing is held

## Main results

* `Receiving.sound_step`: one program delivers what it took, in order
* `once_each_while_none_held`: nothing is delivered twice in a run whose `fork` is called so
* `given_by_both`: a run in which a byte and a message are
-/

namespace OpenkalMusl

open Transition PortState Net

/-! ## The call -/

/-- What a program's memory holds, as far as its input and its children go; `toldPid` is
`g_told_pid`. -/
structure Image where
  port : PortState
  children : Children
  toldPid : Int

/-- What a `fork` leaves: the original, the copy if there is one, and what the original
is answered. -/
structure ForkOutcome where
  original : Image
  copy : Option Image
  result : Except Errno Int

/-- `__okm_fork`; `start` is what `kal_space_start` answers, where there is one, with the identifier
that the environment gives the program. -/
def okmFork (start : Option (Except KalError (Handle × Option Int))) (m : Image) : ForkOutcome :=
  match start with
  | none => ⟨m, none, .error .enosys⟩
  | some answer =>
    match m.children.reserve with
    | none => ⟨m, none, .error .eagain⟩
    | some (i, t) =>
      let reserved := (t.entry i).pid
      match answer with
      | .error e => ⟨{ m with children := t.release i }, none, .error (okmErrno e)⟩
      | .ok (h, id) =>
        let u := t.commit id i h
        ⟨{ m with children := u },
          -- the copy has no children, and is told its identifier
          some { m with children := t.forgetChildren, toldPid := reserved },
          .ok (if 0 < (u.entry i).pid then (u.entry i).pid else reserved)⟩

/-! ## What one program takes and delivers -/

/-- A connection that an `accept` had, and the descriptor that it was given, if there was one. -/
structure Passed where
  conn : Handle
  fd : Option ℕ
  deriving DecidableEq

/-- The connection that waits in a slot. -/
def Sock.heldConn (s : Sock) : List Handle := if s.pendConn then [s.pend] else []

/-- The account of `Inputs`, with the connections that each listener took and what
became of them. -/
structure Receiving extends Inputs where
  conns : Fin okmMaxSock → List Handle
  passed : Fin okmMaxSock → List Passed

inductive ReceiveCall where
  | input (c : InputCall)
  | accept (env : Env) (fd : Int) (flags : ℕ)

namespace Receiving

/-- An enquiry. -/
def enquire (s : Receiving) (a : Asked) : Option Receiving :=
  (s.toInputs.enquire a).map fun t =>
    { s with
      toInputs := t
      conns := match s.port.sockOf a.d with
        | none => s.conns
        | some slot => Function.update s.conns slot (s.conns slot ++
            (s.port.waitIn a.env a.d a.ns).obtained.filterMap Resource.connHandle) }

/-- What an `accept` took and what became of it. A connection that waited was taken before. -/
def afterAccept (s : Receiving) (fd : Int) (o : Outcome) : Receiving :=
  match (s.port.okmDescOf fd).bind s.port.sockOf with
  | none => { s with port := o.port }
  | some slot =>
    let had := o.obtained.filterMap Resource.connHandle
    { s with
      port := o.port
      conns := Function.update s.conns slot
        (s.conns slot ++ if s.port.pendingOf fd = none then had else [])
      passed := Function.update s.passed slot
        (s.passed slot ++ had.map fun c => ⟨c, o.result.toOption⟩) }

/-- One call. -/
def step (me : Context) (s : Receiving) : ReceiveCall → Option Receiving
  | .input (.poll fds timeoutMs rounds) =>
    run enquire s (s.port.okmPoll fds timeoutMs rounds).asked
  | .input (.select nfds rd wr timeoutMs rounds) =>
    run enquire s (s.port.okmSelect nfds rd wr timeoutMs rounds).asked
  | .input c => (s.toInputs.step c).map fun t => { s with toInputs := t }
  | .accept env fd flags => some (s.afterAccept fd (s.port.okmSockAccept me env fd flags))

/-- A table on which nothing has been taken yet. -/
def start (w : PortState) : Receiving where
  toInputs := Inputs.start w
  conns := fun _ => []
  passed := fun _ => []

/-- Every byte, message and connection that was taken was delivered, or given up, in order, or is
held. -/
structure Accounted (s : Receiving) : Prop where
  inputs : s.toInputs.Conserved
  conns : ∀ slot, (s.passed slot).map Passed.conn ++ (s.port.sock slot).heldConn = s.conns slot

end Receiving

/-- A byte, a message or a connection, by where it was taken and how many were taken
there before it. -/
inductive Token where
  | byte (d : Fin okmMaxDesc) (i : ℕ)
  | message (slot : Fin okmMaxSock) (i : ℕ)
  | conn (slot : Fin okmMaxSock) (i : ℕ)

namespace Receiving

/-- The program took it. -/
def Took (s : Receiving) : Token → Prop
  | .byte d i => i < (bytesOf (s.taken d)).length
  | .message slot i => i < (s.messages slot).length
  | .conn slot i => i < (s.conns slot).length

/-- The program is done with it. -/
def Done (s : Receiving) : Token → Prop
  | .byte d i => i < (bytesOf (s.given d)).length
  | .message slot i => i < (s.receipts slot).length
  | .conn slot i => i < (s.passed slot).length

/-- The program was given it: a connection by a descriptor. -/
def gave (s : Receiving) : Token → Bool
  | .byte d i => i < (bytesOf (s.given d)).length
  | .message slot i => i < (s.receipts slot).length
  | .conn slot i => (s.passed slot)[i]?.any fun p => p.fd.isSome

end Receiving

/-! ## Two programs -/

/-- A program: its input, its children and its identifier. -/
structure Program where
  input : Receiving
  children : Children
  toldPid : Int

/-- A copy, and the account that the original had when it was made. -/
structure Copied where
  program : Program
  before : Receiving

/-- The original, the copy once there is one, and how often each thing was delivered by the two. -/
structure Forking where
  original : Program
  copy : Option Copied
  times : Token → ℕ

inductive ForkCall where
  | original (c : ReceiveCall)
  | copy (c : ReceiveCall)
  | fork (start : Option (Except KalError (Handle × Option Int)))

def Program.image (p : Program) : Image := ⟨p.input.port, p.children, p.toldPid⟩

/-- A program with the memory `m`, which goes on from the same account. -/
def Program.load (p : Program) (m : Image) : Program where
  input := { p.input with port := m.port }
  children := m.children
  toldPid := m.toldPid

namespace Forking

/-- A call that a program made delivered what it had not delivered before. -/
def count (s : Forking) (u v : Receiving) (k : Token) : ℕ :=
  s.times k + if v.gave k && !u.gave k then 1 else 0

/-- One call of either program; `me` and `you` are their contexts. A program that is forked
is forked once. -/
def step (me you : Context) (s : Forking) : ForkCall → Option Forking
  | .original c =>
    (s.original.input.step me c).map fun t =>
      { s with original := { s.original with input := t }, times := s.count s.original.input t }
  | .copy c =>
    s.copy.bind fun x => (x.program.input.step you c).map fun t =>
      { s with
        copy := some { x with program := { x.program with input := t } }
        times := s.count x.program.input t }
  | .fork start =>
    match s.copy with
    | some _ => none
    | none =>
      let r := okmFork start s.original.image
      some { s with
        original := s.original.load r.original
        copy := r.copy.map fun m => ⟨s.original.load m, s.original.input⟩ }

/-- A program that has taken nothing. -/
def start (w : PortState) (children : Children) (toldPid : Int) : Forking where
  original := ⟨Receiving.start w, children, toldPid⟩
  copy := none
  times := fun _ => 0

/-- The account at the `fork`, or now where there was none. -/
def before (s : Forking) : Receiving :=
  match s.copy with
  | none => s.original.input
  | some x => x.before

/-- **`fork` does not duplicate input**: what was taken before it is delivered once at most. -/
def OnceEach (s : Forking) : Prop := ∀ k, s.before.Took k → s.times k ≤ 1

/-- A table that holds no byte, no message and no connection. -/
def NoneHeld (w : PortState) : Prop :=
  (∀ d, (w.desc d).ahead = false) ∧
    ∀ slot, (w.sock slot).pendMsg = false ∧ (w.sock slot).pendConn = false

/-- A `fork` is called where nothing is held. -/
def HoldsNone (s : Forking) : ForkCall → Prop
  | .fork _ => NoneHeld s.original.input.port
  | _ => True

instance (w : PortState) : Decidable (NoneHeld w) := inferInstanceAs (Decidable (_ ∧ _))

instance (s : Forking) : (c : ForkCall) → Decidable (s.HoldsNone c)
  | .fork _ => inferInstanceAs (Decidable (NoneHeld _))
  | .original _ => isTrue trivial
  | .copy _ => isTrue trivial

end Forking

/-! ## The table under the calls -/

/-- A table between two calls: its counts are right, what is held is held where it can be, and a
description that is free holds nothing. -/
structure Tidy (w : PortState) : Prop where
  exact : w.Exact
  settled : w.settling = []
  apt : ∀ slot, (w.sock slot).Apt
  idle : ∀ d, (w.desc d).kind = .free → (w.desc d).ahead = false

section Frames

variable {w v : PortState}

/-- The descriptions that are free are as they were. -/
def KeepsFree (w v : PortState) : Prop := ∀ e, (w.desc e).kind = .free → v.desc e = w.desc e

theorem KeepsFree.setDesc {d : Fin okmMaxDesc} (h : (w.desc d).kind ≠ .free) (p : Desc) :
    KeepsFree w (w.setDesc d p) := by
  intro e he
  rw [setDesc_desc, Function.update_of_ne]
  rintro rfl
  exact h he

theorem sameDescs_mild {enquires : Prop} {stream : Handle} {obtained : List Resource}
    (h : Mild enquires stream w v obtained) : SameDescs w v := by
  cases h.touched with
  | still hs => exact hs.descs
  | gained d slot hg => exact hg.descs

theorem apt_mild {enquires : Prop} {stream : Handle} {obtained : List Resource}
    (h : Mild enquires stream w v obtained) (hapt : ∀ slot, (w.sock slot).Apt)
    (slot : Fin okmMaxSock) : (v.sock slot).Apt := by
  cases h.touched with
  | still hs => exact (hs.slots slot).apt (hapt slot)
  | @gained r d slot' hg =>
    rcases eq_or_ne slot slot' with rfl | hne
    · exact hg.gains.apt (hapt slot)
    · exact (hg.slots slot hne).apt (hapt slot)

/-- A call that takes no descriptor and releases none. -/
theorem Tidy.mild {enquires : Prop} {stream : Handle} {obtained : List Resource} (h : Tidy w)
    (hm : Mild enquires stream w v obtained) (hfree : KeepsFree w v) : Tidy v where
  exact := h.exact.congr (named_congr hm.fd) hm.refs (sameDescs_mild hm).kind
  settled := hm.settling.trans h.settled
  apt := apt_mild hm h.apt
  idle := by
    intro d hd
    rw [(sameDescs_mild hm).kind d] at hd
    rw [hfree d hd]
    exact h.idle d hd

/-- What a connection that waits is, where a call takes none of a listener. -/
theorem heldConn_mild {stream : Handle} {obtained : List Resource}
    (h : Mild False stream w v obtained) (hapt : ∀ slot, (w.sock slot).Apt)
    (slot : Fin okmMaxSock) : (v.sock slot).heldConn = (w.sock slot).heldConn := by
  have hsame : SameObject (w.sock slot) (v.sock slot) →
      (v.sock slot).heldConn = (w.sock slot).heldConn := by
    intro hs
    rw [Sock.heldConn, Sock.heldConn, hs.pendConn, hs.pend]
  cases h.touched with
  | still hs => exact hsame (hs.slots slot)
  | @gained r d slot' hg =>
    rcases eq_or_ne slot slot' with rfl | hne
    · obtain ⟨hno, hno'⟩ := Accepting.pendConn_of_gains hg.gains (hapt slot)
      simp [Sock.heldConn, hno, hno']
    · exact hsame (hg.slots slot hne)

/-- A description of which only what is held changed. -/
theorem mild_exchange {lost : Prop} {d : Fin okmMaxDesc} {p' : Desc} {took gave : List Item}
    (h : Exchange lost (w.desc d) p' took gave) : Mild False 0 w (w.setDesc d p') [] := by
  obtain ⟨a, e, rfl⟩ := h.frame
  exact .desc _ rfl rfl rfl rfl

end Frames

namespace Inputs

theorem streamOf_free {p : Desc} (h : p.kind = .free) : streamOf p = .error .eisdir := by
  rw [streamOf, h]

/-- A description that is free is not read. -/
theorem doReadStream_free {w : PortState} {fd : Int} {d : Fin okmMaxDesc}
    (hd : w.okmDescOf fd = some d) (hfree : (w.desc d).kind = .free) (env : IoEnv) (len : ℕ) :
    w.doReadStream env fd len = ⟨w, .error .eisdir, []⟩ := by
  unfold doReadStream
  simp only [hd, hfree, streamOf_free hfree]
  rw [if_neg (by decide)]

theorem doReadv_free {w : PortState} {fd : Int} {d : Fin okmMaxDesc}
    (hd : w.okmDescOf fd = some d) (hfree : (w.desc d).kind = .free) (interactive : Bool)
    (v : List (ℕ × IoEnv)) : (w.doReadv {} interactive fd v).port = w := by
  induction v with
  | nil => rfl
  | cons b v ih =>
    obtain ⟨len, env⟩ := b
    unfold doReadv
    split_ifs
    · exact ih
    · rw [doRead_plain, doReadStream_free hd hfree]

/-- What a read does to the table. -/
theorem mild_read {w v : PortState} {lost : Prop} {d : Fin okmMaxDesc} {p' : Desc}
    {took gave : List Item} (hport : v = w.setDesc d p')
    (hex : Exchange lost (w.desc d) p' took gave) (hfree : (w.desc d).kind = .free → v = w) :
    Mild False 0 w v [] ∧ KeepsFree w v := by
  refine ⟨hport ▸ mild_exchange hex, ?_⟩
  by_cases hkind : (w.desc d).kind = .free
  · rw [hfree hkind]
    exact fun _ _ => rfl
  · rw [hport]
    exact .setDesc hkind p'

/-- What `recv` does to the descriptions. -/
theorem keepsFree_recv (w : PortState) (hone : ∀ d, (w.desc d).HoldsOne) (env : IoEnv) (fd : Int)
    (len flags : ℕ) : KeepsFree w (w.okmSockRecv env fd len flags).port := by
  have hself : ∀ u : PortState, u.desc = w.desc → KeepsFree w u := by
    intro u hu e _
    rw [hu]
  have hreceived : ∀ (u : PortState) obtained r, u.desc = w.desc →
      (u.received obtained len r).port.desc = w.desc := by
    rintro u obtained (e | m) hu
    · exact hu
    · exact hu
  have hdatagram : ∀ (u : PortState) d slot obtained, u.desc = w.desc →
      (u.recvDatagram env d slot len flags obtained).port.desc = w.desc := by
    intro u d slot obtained hu
    unfold recvDatagram
    simp only
    split_ifs
    · exact hu
    · cases env.timeoutRecvFrom with
      | none => exact hu
      | some recv => exact hreceived u obtained _ hu
    · exact hreceived u obtained _ hu
  unfold okmSockRecv
  rcases onSocket_cases w fd fun d slot => w.recvSlot env d slot len flags
    with ⟨e, he, -⟩ | ⟨d, slot, -, hs, he⟩
  · rw [he]
    exact hself _ rfl
  rw [he]
  have hkind : (w.desc d).kind ≠ .free := by
    intro hfree
    rw [sockOf, hfree] at hs
    cases hs
  unfold recvSlot
  simp only
  split_ifs
  · exact hself _ rfl
  · exact hself _ rfl
  · refine hself _ ?_
    unfold withDatagram
    split_ifs
    · cases env.datagramOpen with
      | error e => rfl
      | ok h => exact hdatagram _ d slot _ rfl
    · exact hdatagram w d slot [] rfl
  · exact hself _ rfl
  · obtain ⟨p', hport, -⟩ := exchange_recvStream w (hone d) env slot len flags
    rw [hport]
    exact .setDesc hkind p'

/-- **What a call that reads does to the table**: it takes no descriptor, and touches no description
that is free and no connection that waits. -/
theorem mild_step {s t : Inputs} (hone : ∀ d, (s.port.desc d).HoldsOne)
    (hapt : ∀ slot, (s.port.sock slot).Apt) {c : InputCall} (hc : c.enquires = false)
    (h : s.step c = some t) :
    (∃ stream obtained, Mild False stream s.port t.port obtained) ∧ KeepsFree s.port t.port := by
  cases c with
  | poll fds timeoutMs rounds => cases hc
  | select nfds rd wr timeoutMs rounds => cases hc
  | read env interactive fd len =>
    cases h
    unfold afterRead
    rw [doRead_plain]
    cases hd : s.port.okmDescOf fd with
    | none =>
      have hsame : (s.port.doReadStream env fd len).port = s.port := by simp [doReadStream, hd]
      simp only [hsame]
      exact ⟨⟨0, [], .refl _ _ _⟩, fun _ _ => rfl⟩
    | some d =>
      obtain ⟨p', hport, hex⟩ := exchange_doReadStream hd (hone d) env len
      obtain ⟨hm, hf⟩ := mild_read hport hex fun hfree => by rw [doReadStream_free hd hfree]
      exact ⟨⟨0, [], hm⟩, hf⟩
  | readv interactive fd v =>
    cases h
    unfold afterRead
    cases hd : s.port.okmDescOf fd with
    | none =>
      simp only [doReadv_none hd interactive v]
      exact ⟨⟨0, [], .refl _ _ _⟩, fun _ _ => rfl⟩
    | some d =>
      obtain ⟨p', hport, hex⟩ := exchange_doReadv hd (hone d) interactive v
      obtain ⟨hm, hf⟩ := mild_read hport hex fun hfree => doReadv_free hd hfree interactive v
      exact ⟨⟨0, [], hm⟩, hf⟩
  | recv env fd len flags =>
    cases h
    have hport : (s.afterRecv fd len (s.port.okmSockRecv env fd len flags)).port =
        (s.port.okmSockRecv env fd len flags).port := by
      unfold afterRecv
      cases s.port.okmDescOf fd with
      | none => rfl
      | some d =>
        cases hs : s.port.sockOf d with
        | none => simp only [hs]
        | some slot =>
          simp only [hs]
          split_ifs <;> rfl
    rw [hport]
    exact ⟨⟨_, _, mild_run env hapt fd (.recv len flags)⟩,
      keepsFree_recv s.port hone env fd len flags⟩

end Inputs

/-! ## Enquiries -/

namespace PortState

theorem kind_waitIn (w : PortState) (env : IoEnv) (d : Fin okmMaxDesc) (ns : ℕ)
    (e : Fin okmMaxDesc) : ((w.waitIn env d ns).port.desc e).kind = (w.desc e).kind :=
  (sameDescs_mild (mild_waitIn env w d ns)).kind e

theorem kind_asking (w : PortState) (asked : List Asked) (e : Fin okmMaxDesc) :
    ((w.asking asked).desc e).kind = (w.desc e).kind := by
  induction asked generalizing w with
  | nil => rfl
  | cons a asked ih => exact (ih _).trans (kind_waitIn w a.env a.d a.ns e)

/-- The enquiries are of descriptions that are in use. -/
def AsksUsed (w : PortState) (asked : List Asked) : Prop :=
  ∀ a ∈ asked, (w.desc a.d).kind ≠ .free

theorem AsksUsed.nil (w : PortState) : AsksUsed w [] := fun _ h => nomatch h

theorem AsksUsed.append {w : PortState} {as bs : List Asked} (ha : AsksUsed w as)
    (hb : AsksUsed w bs) : AsksUsed w (as ++ bs) := by
  intro a h
  rcases List.mem_append.mp h with h | h
  · exact ha a h
  · exact hb a h

theorem kind_of_hasInputRoute {w : PortState} {d : Fin okmMaxDesc}
    (h : w.hasInputRoute d = true) : (w.desc d).kind ≠ .free := by
  intro hfree
  rw [hasInputRoute, hfree] at h
  cases h

theorem asksUsed_pollOne {w : PortState} {ns : ℕ} {r : Round} (hport : r.port = w.asking r.asked)
    (h : AsksUsed w r.asked) (e : PollFd) (env : IoEnv) :
    AsksUsed w (pollOne ns r e env).asked := by
  unfold pollOne
  split_ifs
  · exact h
  · split
    · exact h
    · rename_i d _
      simp only
      split_ifs with _ hroute
      · exact h
      · have hused : AsksUsed w (r.asked ++ [⟨d, ns, env⟩]) := by
          refine h.append fun a ha => ?_
          rw [List.mem_singleton] at ha
          have hkind := kind_of_hasInputRoute hroute.2
          rwa [hport, kind_asking, ← show a.d = d from congrArg Asked.d ha] at hkind
        split <;> exact hused
      · exact h

theorem asksUsed_pollRound {w : PortState} (ns : ℕ) (env : ℕ → IoEnv) {r : Round}
    (hport : r.port = w.asking r.asked) (h : AsksUsed w r.asked) (i : ℕ) (es : List PollFd) :
    AsksUsed w (pollRound ns env r i es).asked := by
  induction es generalizing r i with
  | nil => exact h
  | cons e es ih =>
    exact ih (pollOne_port hport e (env i)) (asksUsed_pollOne hport h e (env i)) (i + 1)

theorem asksUsed_pollRounds (w₀ : PortState) {w : PortState} (fds : List PollFd)
    (single forever : Bool) (left : ℕ) {asked : List Asked} (h : AsksUsed w₀ asked)
    (hw : w = w₀.asking asked) (rounds : List (ℕ → IoEnv)) :
    AsksUsed w₀ (pollRounds fds single forever w left asked rounds).asked := by
  induction rounds generalizing w left asked with
  | nil => exact h
  | cons env rounds ih =>
    unfold pollRounds
    simp only
    generalize (if single then (if forever then 0 else if left ≠ 0 then left else okmNowNs)
      else okmNowNs) = ns
    have hport := pollRound_port (w := w) ns env (r := { port := w }) rfl 0 fds
    have hround := asksUsed_pollRound (w := w) ns env (r := { port := w }) rfl (.nil w) 0 fds
    generalize pollRound ns env { port := w } 0 fds = r at hport hround ⊢
    have hall : AsksUsed w₀ (asked ++ r.asked) := by
      refine h.append fun a ha => ?_
      have hkind := hround a ha
      rwa [hw, kind_asking] at hkind
    have hleft : r.port = w₀.asking (asked ++ r.asked) := by
      rw [asking_append, ← hw]
      exact hport
    cases r.failure with
    | some e => split_ifs <;> exact hall
    | none =>
      simp only
      split_ifs
      · exact hall
      · exact hall
      · exact hall
      · exact ih _ hall hleft
      · exact ih _ hall hleft
      · exact ih _ hall hleft
      · exact ih _ hall hleft

/-- **`poll`** asks only about descriptions that are in use. -/
theorem asksUsed_okmPoll (w : PortState) (fds : Option (List PollFd)) (timeoutMs : Int)
    (rounds : List (ℕ → IoEnv)) : AsksUsed w (w.okmPoll fds timeoutMs rounds).asked := by
  unfold okmPoll
  cases fds with
  | none => exact .nil w
  | some fds =>
    simp only
    split_ifs
    · exact .nil w
    all_goals exact asksUsed_pollRounds w _ _ _ _ (.nil w) rfl _

/-- So does **`select`**. -/
theorem asksUsed_okmSelect (w : PortState) (nfds : Int) (rd wr : Option (ℕ → Bool))
    (timeoutMs : Int) (rounds : List (ℕ → IoEnv)) :
    AsksUsed w (w.okmSelect nfds rd wr timeoutMs rounds).asked := by
  unfold okmSelect
  cases selectSet nfds rd wr with
  | error e => exact .nil w
  | ok es =>
    have hused := asksUsed_okmPoll w (some es) timeoutMs rounds
    simp only
    split <;> exact hused

end PortState

/-! ## The account of one program -/

namespace Receiving

/-- The account is right, and the table is between two calls. -/
structure Sound (s : Receiving) : Prop where
  inputs : s.toInputs.Sound
  conns : ∀ slot, (s.passed slot).map Passed.conn ++ (s.port.sock slot).heldConn = s.conns slot
  tidy : Tidy s.port

theorem Sound.accounted {s : Receiving} (h : s.Sound) : s.Accounted :=
  ⟨h.inputs.toConserved, h.conns⟩

/-- What a program is done with stays as it was settled. -/
structure Grows (s t : Receiving) : Prop where
  given : ∀ d, s.given d <+: t.given d
  receipts : ∀ slot, s.receipts slot <+: t.receipts slot
  passed : ∀ slot, s.passed slot <+: t.passed slot

theorem Grows.refl (s : Receiving) : Grows s s :=
  ⟨fun _ => List.prefix_rfl, fun _ => List.prefix_rfl, fun _ => List.prefix_rfl⟩

theorem Grows.trans {s t u : Receiving} (h : Grows s t) (h' : Grows t u) : Grows s u where
  given := fun d => (h.given d).trans (h'.given d)
  receipts := fun slot => (h.receipts slot).trans (h'.receipts slot)
  passed := fun slot => (h.passed slot).trans (h'.passed slot)

/-- A list of a family that was continued. -/
theorem prefix_update {ι α : Type*} [DecidableEq ι] (f : ι → List α) (i : ι) (l : List α) (j : ι) :
    f j <+: Function.update f i (f i ++ l) j := by
  rcases eq_or_ne j i with rfl | hne
  · rw [Function.update_self]
    exact List.prefix_append _ _
  · rw [Function.update_of_ne hne]

/-- What a call of `Inputs` delivers comes after what was delivered. -/
theorem grows_moved {lost : Prop} {s : Receiving} {t : Inputs}
    (h : Inputs.Moved lost s.toInputs t) (conns : Fin okmMaxSock → List Handle) :
    Grows s { s with toInputs := t, conns := conns } := by
  refine ⟨?_, ?_, fun _ => List.prefix_rfl⟩
  · intro d
    cases h with
    | same => exact List.prefix_rfl
    | stream e p' took gave one kind bytes items => exact prefix_update s.given e gave d
    | message slot s' m r ms held gave => exact List.prefix_rfl
  · intro e
    cases h with
    | same => exact List.prefix_rfl
    | stream d p' took gave one kind bytes items => exact List.prefix_rfl
    | message slot s' m r ms held gave => exact prefix_update s.receipts slot r.toList e

/-! ### Enquiries -/

theorem keepsFree_waitIn {w : PortState} {d : Fin okmMaxDesc} (h : (w.desc d).kind ≠ .free)
    (env : IoEnv) (ns : ℕ) : KeepsFree w (w.waitIn env d ns).port := by
  have hw := waited_waitIn w env d ns
  generalize w.waitIn env d ns = q at hw ⊢
  cases hw with
  | same result => exact fun _ _ => rfl
  | byte b hnone => exact .setDesc h _
  | eof hnone => exact .setDesc h _
  | conn slot c hslot hlisten hnone => exact fun _ _ => rfl
  | buf slot result hslot hdgram hnone => exact fun _ _ => rfl
  | message slot m hslot hdgram hnone => exact fun _ _ => rfl

/-- What an enquiry does to the connections that wait: one that it takes waits, and the others are
as they were. -/
theorem heldConn_waitIn (w : PortState) (d : Fin okmMaxDesc) (env : IoEnv) (ns : ℕ) :
    ((w.waitIn env d ns).obtained = [] ∧
        ∀ slot, ((w.waitIn env d ns).port.sock slot).heldConn = (w.sock slot).heldConn) ∨
      ∃ slot c, w.sockOf d = some slot ∧ (w.waitIn env d ns).obtained = [.conn c] ∧
        ∀ e, ((w.waitIn env d ns).port.sock e).heldConn =
          (w.sock e).heldConn ++ if e = slot then [c] else [] := by
  have hw := waited_waitIn w env d ns
  generalize w.waitIn env d ns = q at hw ⊢
  have hslot : ∀ (slot : Fin okmMaxSock) (s' : Sock), s'.heldConn = (w.sock slot).heldConn →
      ∀ e, ((w.setSlot slot s').sock e).heldConn = (w.sock e).heldConn := by
    intro slot s' h e
    rcases eq_or_ne e slot with rfl | hne
    · rw [setSlot_sock, h]
    · rw [setSlot_of_ne w hne]
  cases hw with
  | same result => exact Or.inl ⟨rfl, fun _ => rfl⟩
  | byte b hnone => exact Or.inl ⟨rfl, fun _ => rfl⟩
  | eof hnone => exact Or.inl ⟨rfl, fun _ => rfl⟩
  | conn slot c hs hlisten hnone =>
    refine Or.inr ⟨slot, c, hs, rfl, fun e => ?_⟩
    rcases eq_or_ne e slot with rfl | hne
    · simp [keepConn, setSlot, Sock.heldConn, hnone]
    · simp [keepConn, setSlot_of_ne w hne, hne]
  | buf slot result hs hdgram hnone => exact Or.inl ⟨rfl, hslot slot _ rfl⟩
  | message slot m hs hdgram hnone =>
    rw [keepMessage_obtainBuf]
    exact Or.inl ⟨rfl, hslot slot _ rfl⟩

theorem port_enquire {s t : Inputs} {a : Asked} (h : s.enquire a = some t) :
    t.port = (s.port.waitIn a.env a.d a.ns).port := by
  have hrun : run Inputs.enquire s [a] = some t := run_cons.mpr ⟨t, h, rfl⟩
  exact Inputs.port_enquiries hrun

/-- **An enquiry** keeps the account. -/
theorem sound_enquire {s t : Receiving} (hs : s.Sound) {a : Asked}
    (hused : (s.port.desc a.d).kind ≠ .free) (h : s.enquire a = some t) : t.Sound := by
  obtain ⟨u, hu, rfl⟩ := Option.map_eq_some_iff.mp h
  have hport := port_enquire hu
  refine ⟨hs.inputs.moved (Inputs.moved_enquire hu), ?_, ?_⟩
  · intro e
    show (s.passed e).map Passed.conn ++ (u.port.sock e).heldConn = _
    rw [hport]
    rcases heldConn_waitIn s.port a.d a.env a.ns with
      ⟨hobt, hheld⟩ | ⟨slot, c, hslot, hobt, hheld⟩
    · rw [hheld, hs.conns, hobt]
      cases s.port.sockOf a.d with
      | none => rfl
      | some slot => simp
    · rw [hheld, ← List.append_assoc, hs.conns, hobt]
      simp only [hslot]
      rcases eq_or_ne e slot with rfl | hne
      · simp [Resource.connHandle]
      · simp [hne]
  · show Tidy u.port
    rw [hport]
    exact hs.tidy.mild (mild_waitIn a.env s.port a.d a.ns) (keepsFree_waitIn hused a.env a.ns)

theorem grows_enquire {s t : Receiving} {a : Asked} (h : s.enquire a = some t) : Grows s t := by
  obtain ⟨u, hu, rfl⟩ := Option.map_eq_some_iff.mp h
  exact grows_moved (Inputs.moved_enquire hu) _

/-- Enquiries, one after another. -/
theorem sound_enquiries {s t : Receiving} (hs : s.Sound) {asked : List Asked}
    (hused : AsksUsed s.port asked) (h : run enquire s asked = some t) : t.Sound ∧ Grows s t := by
  induction asked generalizing s with
  | nil =>
    cases h
    exact ⟨hs, .refl _⟩
  | cons a asked ih =>
    obtain ⟨u, hu, hrun⟩ := run_cons.mp h
    have hport : u.port = (s.port.waitIn a.env a.d a.ns).port := by
      obtain ⟨v, hv, rfl⟩ := Option.map_eq_some_iff.mp hu
      exact port_enquire hv
    have hused' : AsksUsed u.port asked := by
      intro b hb
      rw [hport, kind_waitIn]
      exact hused b (List.mem_cons_of_mem a hb)
    obtain ⟨ht, hgrows⟩ := ih (sound_enquire hs (hused a List.mem_cons_self) hu) hused' hrun
    exact ⟨ht, (grows_enquire hu).trans hgrows⟩

/-! ### `accept` -/

/-- A description that is bound holds nothing. -/
theorem ahead_bindSock {w : PortState} (h : w.Exact) (me : Context) (stream : Handle) (flags : ℕ)
    (fill : Sock → Sock) (e : Fin okmMaxDesc) :
    (w.bindSock me stream flags fill).1.desc e = w.desc e ∨
      ((w.bindSock me stream flags fill).1.desc e).heldItems = [] := by
  unfold bindSock
  cases hf : w.okmFdAlloc 0 with
  | error err => exact Or.inl rfl
  | ok f =>
    have hfree : (w.fd f).desc = none := okmFdAlloc_eq_ok hf
    rcases slotAlloc_cases w with ⟨hnone, -⟩ | ⟨slot, -, halloc⟩
    · rw [hnone]
      exact Or.inl rfl
    · rw [halloc]
      have hw : (w.setSlot slot { state := .new, buf := (w.sock slot).buf }).Exact := fun d => h d
      obtain ⟨d, hbind, -⟩ := hw.okmFdBind_ok hfree me .socket stream 0 0 flags
      simp only [hbind]
      rw [setSock_eq (d := d) (by simp [okmDescOf, fdIndex_val, setFd])]
      rcases eq_or_ne e d with rfl | hne
      · exact Or.inr (by simp [Desc.heldItems, bindDesc, setFd, setDesc, record, Desc.bind])
      · exact Or.inl (by simp [bindDesc, setFd, setDesc, record, setSlot, hne])

theorem ahead_acceptConn {w : PortState} (h : w.Exact) (me : Context) (env : Env) (c : Handle)
    (flags : ℕ) (e : Fin okmMaxDesc) :
    (w.acceptConn me env c flags).port.desc e = w.desc e ∨
      ((w.acceptConn me env c flags).port.desc e).heldItems = [] := by
  have hb := ahead_bindSock h me env.connStream (oRdwr ||| sockFlags flags)
    (fun s => { s with state := .conn, conn := c, type := 1 }) e
  unfold acceptConn adopt
  generalize w.bindSock me env.connStream (oRdwr ||| sockFlags flags)
    (fun s => { s with state := .conn, conn := c, type := 1 }) = r at hb ⊢
  obtain ⟨v, err | f⟩ := r
  · simp only [finishPlain, leave_desc]
    exact hb
  · simp only [finishPlain, leave_desc]
    split_ifs
    · rw [okmFdCloexec_desc]
      exact hb
    · exact hb

/-- The same bytes, messages and connections are held. -/
structure SameHeld (w v : PortState) : Prop where
  byte : ∀ d, (v.desc d).heldByte = (w.desc d).heldByte
  one : ∀ d, (w.desc d).HoldsOne → (v.desc d).HoldsOne
  message : ∀ slot, (v.sock slot).heldMessage = (w.sock slot).heldMessage
  conn : ∀ slot, (v.sock slot).heldConn = (w.sock slot).heldConn

/-- **A connection that is placed** finds a description and a slot that hold nothing, and
leaves them so. -/
theorem tidy_acceptConn {w : PortState} (h : Tidy w) (me : Context) (env : Env) (c : Handle)
    (flags : ℕ) :
    Tidy (w.acceptConn me env c flags).port ∧ SameHeld w (w.acceptConn me env c flags).port := by
  rcases acceptConn_cases h.exact h.settled me env c flags with
    ⟨-, -, hport⟩ | ⟨-, f, d, slot, -, -, hp⟩
  · rw [hport]
    exact ⟨⟨h.exact, h.settled, h.apt, h.idle⟩, fun _ => rfl, fun _ => id, fun _ => rfl,
      fun _ => rfl⟩
  have hahead := ahead_acceptConn h.exact me env c flags
  generalize (w.acceptConn me env c flags).port = v at hp hahead ⊢
  obtain ⟨p, hdesc, hkind, -, -⟩ := hp.desc
  have hother : ∀ e, e ≠ d → v.desc e = w.desc e := by
    intro e hne
    rw [hdesc, Function.update_of_ne hne]
  have hbyte : (w.desc d).heldByte = [] := by simp [Desc.heldByte, h.idle d hp.free]
  have hat : (v.desc d).heldItems = [] := by
    refine (hahead d).resolve_left fun hsame => ?_
    -- it was free, and is a socket's
    have hfree := hp.free
    rw [← hsame, hdesc, Function.update_self, hkind] at hfree
    cases hfree
  have hslot : ∀ e, e ≠ slot → v.sock e = w.sock e := by
    intro e hne
    rw [hp.sock, Function.update_of_ne hne]
  have hnew : v.sock slot = { state := .conn, conn := c, type := 1, buf := (w.sock slot).buf } := by
    rw [hp.sock, Function.update_self]
  have hnone : (w.sock slot).pendConn = false ∧ (w.sock slot).pendMsg = false := by
    refine ⟨pendConn_of_free (h.apt slot) hp.slotFree, Gains.pendMsg_of_ne (h.apt slot) ?_⟩
    rw [hp.slotFree]
    decide
  refine ⟨⟨hp.exact, hp.settled, fun e => ?_, fun e he => ?_⟩, fun e => ?_, fun e hone => ?_,
    fun e => ?_, fun e => ?_⟩
  · rcases eq_or_ne e slot with rfl | hne
    · rw [hnew]
      exact apt_conn c _
    · rw [hslot e hne]
      exact h.apt e
  · rcases eq_or_ne e d with rfl | hne
    · rw [hdesc, Function.update_self, hkind] at he
      cases he
    · rw [hother e hne] at he ⊢
      exact h.idle e he
  · rcases eq_or_ne e d with rfl | hne
    · rw [hbyte, ← bytesOf_heldItems, hat]
      rfl
    · rw [hother e hne]
  · rcases eq_or_ne e d with rfl | hne
    · intro hboth
      simp [Desc.heldItems, hboth.1] at hat
    · rw [hother e hne]
      exact hone
  · rcases eq_or_ne e slot with rfl | hne
    · rw [hnew]
      simp [Sock.heldMessage, hnone.2]
    · rw [hslot e hne]
  · rcases eq_or_ne e slot with rfl | hne
    · rw [hnew]
      simp [Sock.heldConn, hnone.1]
    · rw [hslot e hne]

theorem tidy_takePending {w : PortState} (h : Tidy w) (slot : Fin okmMaxSock) :
    Tidy (w.takePending slot) := by
  refine ⟨h.exact, h.settled, fun e => ?_, h.idle⟩
  rw [takePending_eq]
  rcases eq_or_ne e slot with rfl | hne
  · rw [setSlot_sock]
    refine ⟨fun hp => ?_, (h.apt e).pendMsg⟩
    cases hp
  · rw [setSlot_of_ne w hne]
    exact h.apt e

/-- Of the bytes and the messages, the account is that of what is held. -/
theorem sound_sameHeld {s : Inputs} (hs : s.Sound) {v : PortState}
    (hbyte : ∀ d, (v.desc d).heldByte = (s.port.desc d).heldByte)
    (hone : ∀ d, (s.port.desc d).HoldsOne → (v.desc d).HoldsOne)
    (hmessage : ∀ slot, (v.sock slot).heldMessage = (s.port.sock slot).heldMessage) :
    Inputs.Sound { s with port := v } := by
  refine ⟨⟨fun d => ?_, fun slot => ?_⟩, fun d => hone d (hs.one d)⟩
  · show bytesOf (s.given d) ++ (v.desc d).heldByte = _
    rw [hbyte]
    exact hs.bytes d
  · show ∃ ms, s.messages slot = ms ++ (v.sock slot).heldMessage ∧ _
    rw [hmessage]
    exact hs.messages slot

/-- **`accept`** keeps the account. -/
theorem sound_accept {s : Receiving} (hs : s.Sound) (me : Context) (env : Env) (fd : Int)
    (flags : ℕ) : (s.afterAccept fd (s.port.okmSockAccept me env fd flags)).Sound := by
  unfold afterAccept
  rcases okmSockAccept_cases s.port me env fd flags with ⟨-, e, he⟩ |
    ⟨slot, c, hslot, -, -, ⟨hpending, hpend, hc, he⟩ | ⟨hnone, he⟩⟩
  · rw [he]
    cases (s.port.okmDescOf fd).bind s.port.sockOf with
    | none => exact hs
    | some slot =>
      simp only [fail, List.filterMap_nil, List.map_nil, ite_self, List.append_nil,
        Function.update_eq_self]
      exact hs
  · -- the connection that waited is taken, and what becomes of it is settled
    have htidy := tidy_takePending hs.tidy slot
    obtain ⟨htidy', hheld⟩ := tidy_acceptConn htidy me env c flags
    have htaken : ∀ e, (s.port.sock e).heldConn = (if e = slot then [c] else []) ++
        ((s.port.takePending slot).sock e).heldConn := by
      intro e
      rw [takePending_eq]
      rcases eq_or_ne e slot with rfl | hne
      · simp [setSlot, Sock.heldConn, hpend, hc]
      · simp [setSlot_of_ne _ hne, hne]
    have hmessage : ∀ e, ((s.port.takePending slot).sock e).heldMessage =
        (s.port.sock e).heldMessage := by
      intro e
      rw [takePending_eq]
      rcases eq_or_ne e slot with rfl | hne
      · simp [setSlot, Sock.heldMessage, pendingMessage]
      · rw [setSlot_of_ne _ hne]
    rw [he, hslot]
    simp only [acceptConn_obtained, hpending]
    generalize ((s.port.takePending slot).acceptConn me env c flags).port = v at htidy' hheld ⊢
    refine ⟨sound_sameHeld hs.inputs hheld.byte hheld.one fun e => ?_, fun e => ?_, htidy'⟩
    · exact (hheld.message e).trans (hmessage e)
    · have hconns := hs.conns e
      rw [htaken e, ← hheld.conn e] at hconns
      rcases eq_or_ne e slot with rfl | hne
      · simpa [Resource.connHandle] using hconns
      · simpa [hne] using hconns
  · obtain ⟨htidy', hheld⟩ := tidy_acceptConn hs.tidy me env c flags
    have hempty : (s.port.sock slot).heldConn = [] := by
      rw [pendingOf, hslot] at hnone
      simpa [Sock.heldConn] using hnone
    rw [he, hslot]
    simp only [acceptConn_obtained, hnone]
    generalize (s.port.acceptConn me env c flags).port = v at htidy' hheld ⊢
    refine ⟨sound_sameHeld hs.inputs hheld.byte hheld.one hheld.message, fun e => ?_, htidy'⟩
    have hconns := hs.conns e
    rw [← hheld.conn e] at hconns
    rcases eq_or_ne e slot with rfl | hne
    · rw [hheld.conn e, hempty] at hconns
      simpa [Resource.connHandle, hheld.conn e, hempty] using hconns
    · simpa [hne] using hconns

theorem grows_accept (s : Receiving) (fd : Int) (o : Outcome) : Grows s (s.afterAccept fd o) := by
  unfold afterAccept
  cases (s.port.okmDescOf fd).bind s.port.sockOf with
  | none => exact ⟨fun _ => List.prefix_rfl, fun _ => List.prefix_rfl, fun _ => List.prefix_rfl⟩
  | some slot =>
    refine ⟨fun _ => List.prefix_rfl, fun _ => List.prefix_rfl, fun e => ?_⟩
    exact prefix_update s.passed slot _ e

/-- A call that reads keeps the account, and delivers after what it delivered. -/
theorem sound_reads {s t : Receiving} (hs : s.Sound) (c : InputCall) (hc : c.enquires = false)
    (h : (s.toInputs.step c).map (fun u => { s with toInputs := u }) = some t) :
    t.Sound ∧ Grows s t := by
  obtain ⟨u, hu, rfl⟩ := Option.map_eq_some_iff.mp h
  have hmoved := Inputs.moved_reads hs.inputs.one hc hu
  obtain ⟨⟨stream, obtained, hm⟩, hfree⟩ := Inputs.mild_step hs.inputs.one hs.tidy.apt hc hu
  refine ⟨⟨hs.inputs.moved hmoved, fun slot => ?_, hs.tidy.mild hm hfree⟩,
    grows_moved hmoved s.conns⟩
  show (s.passed slot).map Passed.conn ++ (u.port.sock slot).heldConn = s.conns slot
  rw [heldConn_mild hm hs.tidy.apt slot]
  exact hs.conns slot

/-- **One call** keeps the account, and leaves what was settled as it was. -/
theorem sound_step {me : Context} {s t : Receiving} (hs : s.Sound) {c : ReceiveCall}
    (h : s.step me c = some t) : t.Sound ∧ Grows s t := by
  cases c with
  | accept env fd flags =>
    cases h
    exact ⟨sound_accept hs me env fd flags, grows_accept s fd _⟩
  | input i =>
    cases i with
    | poll fds timeoutMs rounds =>
      exact sound_enquiries hs (asksUsed_okmPoll s.port fds timeoutMs rounds) h
    | select nfds rd wr timeoutMs rounds =>
      exact sound_enquiries hs (asksUsed_okmSelect s.port nfds rd wr timeoutMs rounds) h
    | read env interactive fd len => exact sound_reads hs (.read env interactive fd len) rfl h
    | readv interactive fd v => exact sound_reads hs (.readv interactive fd v) rfl h
    | recv env fd len flags => exact sound_reads hs (.recv env fd len flags) rfl h

/-- A table on which nothing is held, between two calls. -/
theorem sound_start {w : PortState} (h : Tidy w) (hw : Inputs.NothingHeld w)
    (hconn : ∀ slot, (w.sock slot).pendConn = false) : (start w).Sound where
  inputs := Inputs.sound_start hw
  conns := fun slot => by simp [start, Inputs.start, Sock.heldConn, hconn slot]
  tidy := h

/-! ## What is done with is not delivered again -/

theorem Grows.done {s t : Receiving} (h : Grows s t) {k : Token} (hk : s.Done k) : t.Done k := by
  cases k with
  | byte d i =>
    obtain ⟨l, hl⟩ := h.given d
    show i < (bytesOf (t.given d)).length
    rw [← hl, bytesOf_append, List.length_append]
    exact Nat.lt_add_right _ hk
  | message slot i => exact Nat.lt_of_lt_of_le hk (h.receipts slot).length_le
  | conn slot i => exact Nat.lt_of_lt_of_le hk (h.passed slot).length_le

theorem gave_byte {s : Receiving} {d : Fin okmMaxDesc} {i : ℕ} :
    s.gave (.byte d i) = true ↔ s.Done (.byte d i) := decide_eq_true_iff

theorem gave_message {s : Receiving} {slot : Fin okmMaxSock} {i : ℕ} :
    s.gave (.message slot i) = true ↔ s.Done (.message slot i) := decide_eq_true_iff

/-- Of what a program is done with, nothing changes. -/
theorem Grows.gave {s t : Receiving} (h : Grows s t) {k : Token} (hk : s.Done k) :
    t.gave k = s.gave k := by
  cases k with
  | byte d i => rw [gave_byte.mpr hk, gave_byte.mpr (h.done hk)]
  | message slot i => rw [gave_message.mpr hk, gave_message.mpr (h.done hk)]
  | conn slot i =>
    obtain ⟨l, hl⟩ := h.passed slot
    have hsame : (t.passed slot)[i]? = (s.passed slot)[i]? := by
      rw [← hl, List.getElem?_append_left hk]
    rw [Receiving.gave, Receiving.gave, hsame]

/-- What a program delivered it is done with. -/
theorem done_of_gave {s : Receiving} {k : Token} (h : s.gave k = true) : s.Done k := by
  cases k with
  | byte d i => exact gave_byte.mp h
  | message slot i => exact gave_message.mp h
  | conn slot i =>
    by_contra hlt
    rw [Receiving.gave, List.getElem?_eq_none (Nat.le_of_not_lt hlt)] at h
    cases h

/-- **Where nothing is held, a program is done with all it took.** -/
theorem done_of_noneHeld {s : Receiving} (hs : s.Sound) (h : Forking.NoneHeld s.port) {k : Token}
    (hk : s.Took k) : s.Done k := by
  cases k with
  | byte d i =>
    have hbytes := hs.inputs.bytes d
    rw [Desc.heldByte, h.1 d] at hbytes
    simpa [Took, Done, ← hbytes] using hk
  | message slot i =>
    obtain ⟨ms, hms, hgave⟩ := hs.inputs.messages slot
    rw [Sock.heldMessage, (h.2 slot).1] at hms
    simpa [Took, Done, hms, ← hgave.length_eq] using hk
  | conn slot i =>
    have hconns := hs.conns slot
    rw [Sock.heldConn, (h.2 slot).2] at hconns
    simpa [Took, Done, ← hconns] using hk

end Receiving

/-! ## Two programs, step by step -/

/-- **What a `fork` copies**: the table of the copy is the original's, with all that is
held in it. -/
theorem okmFork_port (start : Option (Except KalError (Handle × Option Int))) (m : Image) :
    (okmFork start m).original.port = m.port ∧ ∀ c ∈ (okmFork start m).copy, c.port = m.port := by
  unfold okmFork
  cases start with
  | none => exact ⟨rfl, nofun⟩
  | some answer =>
    cases m.children.reserve with
    | none => exact ⟨rfl, nofun⟩
    | some r =>
      obtain ⟨i, t⟩ := r
      cases answer with
      | error e => exact ⟨rfl, nofun⟩
      | ok a =>
        refine ⟨rfl, fun c hc => ?_⟩
        cases hc
        rfl

theorem Program.load_input {p : Program} {m : Image} (h : m.port = p.input.port) :
    (p.load m).input = p.input := by
  unfold load
  rw [h]

namespace Forking

/-- What holds of the two programs: their accounts are right and continue the one of the `fork`, at
which the original was done with all it had taken. -/
structure Inv (s : Forking) : Prop where
  original : s.original.input.Sound
  copy : ∀ x ∈ s.copy, x.program.input.Sound
  grown : ∀ x ∈ s.copy, x.before.Grows s.original.input ∧ x.before.Grows x.program.input
  done : ∀ x ∈ s.copy, ∀ k, x.before.Took k → x.before.Done k
  alone : s.copy = none → ∀ k, s.times k = if s.original.input.gave k then 1 else 0
  once : s.OnceEach

/-- A call delivers nothing again that was done with. -/
theorem count_of_done {u v : Receiving} (hgrows : u.Grows v) {k : Token} (hk : u.Done k)
    (s : Forking) : s.count u v k = s.times k := by
  unfold count
  rw [hgrows.gave hk]
  cases u.gave k <;> rfl

/-- A program alone delivers each thing once. -/
theorem count_alone {s : Forking} {u v : Receiving} (hgrows : u.Grows v) {k : Token}
    (h : s.times k = if u.gave k then 1 else 0) :
    s.count u v k = if v.gave k then 1 else 0 := by
  cases hk : u.gave k with
  | true =>
    rw [count_of_done hgrows (Receiving.done_of_gave hk), h,
      hgrows.gave (Receiving.done_of_gave hk)]
  | false =>
    unfold count
    rw [h, hk]
    cases v.gave k <;> rfl

theorem inv_start {w : PortState} (h : Tidy w) (hw : Inputs.NothingHeld w)
    (hconn : ∀ slot, (w.sock slot).pendConn = false) (children : Children) (toldPid : Int) :
    Inv (start w children toldPid) where
  original := Receiving.sound_start h hw hconn
  copy := nofun
  grown := nofun
  done := nofun
  alone := fun _ k => by cases k <;> rfl
  once := fun _ _ => Nat.zero_le 1

/-- A call of the original. -/
theorem Inv.original_step {s : Forking} (h : s.Inv) {me : Context} {c : ReceiveCall}
    {t : Receiving} (ht : s.original.input.step me c = some t) :
    Inv { s with
      original := { s.original with input := t }
      times := s.count s.original.input t } := by
  obtain ⟨hsound, hgrows⟩ := Receiving.sound_step h.original ht
  have halone : s.copy = none → ∀ k, s.count s.original.input t k = if t.gave k then 1 else 0 :=
    fun hno k => count_alone hgrows (h.alone hno k)
  refine ⟨hsound, h.copy, fun x hx => ?_, h.done, halone, fun k hk => ?_⟩
  · obtain ⟨ho, hp⟩ := h.grown x hx
    exact ⟨ho.trans hgrows, hp⟩
  · show s.count s.original.input t k ≤ 1
    cases hcopy : s.copy with
    | none =>
      rw [halone hcopy]
      split_ifs
      · exact le_rfl
      · exact Nat.zero_le 1
    | some x =>
      have hbefore : s.before = x.before := by rw [before, hcopy]
      have htook : x.before.Took k := by simpa only [before, hcopy] using hk
      have hdone := (h.grown x hcopy).1.done (h.done x hcopy k htook)
      rw [count_of_done hgrows hdone]
      exact h.once k (hbefore ▸ htook)

/-- A call of the copy. -/
theorem Inv.copy_step {s : Forking} (h : s.Inv) {you : Context} {c : ReceiveCall} {x : Copied}
    (hx : s.copy = some x) {t : Receiving} (ht : x.program.input.step you c = some t) :
    Inv { s with
      copy := some { x with program := { x.program with input := t } }
      times := s.count x.program.input t } := by
  obtain ⟨hsound, hgrows⟩ := Receiving.sound_step (h.copy x hx) ht
  obtain ⟨ho, hp⟩ := h.grown x hx
  refine ⟨h.original, ?_, ?_, ?_, nofun, fun k hk => ?_⟩
  · rintro y ⟨⟩
    exact hsound
  · rintro y ⟨⟩
    exact ⟨ho, hp.trans hgrows⟩
  · rintro y ⟨⟩
    exact h.done x hx
  · show s.count x.program.input t k ≤ 1
    have htook : x.before.Took k := hk
    rw [count_of_done hgrows (hp.done (h.done x hx k htook))]
    refine h.once k ?_
    rw [before, hx]
    exact htook

/-- **A `fork`** where nothing is held: the original is done with all it took. -/
theorem Inv.fork_step {s : Forking} (h : s.Inv) (hnone : s.copy = none)
    (hheld : NoneHeld s.original.input.port)
    (start : Option (Except KalError (Handle × Option Int))) :
    Inv { s with
      original := s.original.load (okmFork start s.original.image).original
      copy := (okmFork start s.original.image).copy.map fun m =>
        ⟨s.original.load m, s.original.input⟩ } := by
  obtain ⟨horiginal, hcopy⟩ := okmFork_port start s.original.image
  have hload : (s.original.load (okmFork start s.original.image).original).input =
      s.original.input := Program.load_input horiginal
  generalize okmFork start s.original.image = r at horiginal hcopy hload ⊢
  have hmem : ∀ x ∈ r.copy.map (fun m => (⟨s.original.load m, s.original.input⟩ : Copied)),
      x.program.input = s.original.input ∧ x.before = s.original.input := by
    intro x hx
    obtain ⟨m, hm, rfl⟩ := Option.map_eq_some_iff.mp hx
    exact ⟨Program.load_input (hcopy m hm), rfl⟩
  refine ⟨?_, fun x hx => ?_, fun x hx => ?_, fun x hx => ?_, fun _ => ?_, fun k hk => ?_⟩
  · exact hload ▸ h.original
  · exact (hmem x hx).1 ▸ h.original
  · rw [hload, (hmem x hx).1, (hmem x hx).2]
    exact ⟨.refl _, .refl _⟩
  · rw [(hmem x hx).2]
    exact fun k => Receiving.done_of_noneHeld h.original hheld
  · rw [hload]
    exact h.alone hnone
  · show s.times k ≤ 1
    rw [h.alone hnone]
    split_ifs
    · exact le_rfl
    · exact Nat.zero_le 1

theorem Inv.step {me you : Context} {s t : Forking} (h : s.Inv) {c : ForkCall}
    (hg : s.HoldsNone c) (ht : Forking.step me you s c = some t) : t.Inv := by
  cases c with
  | original c =>
    obtain ⟨u, hu, rfl⟩ := Option.map_eq_some_iff.mp ht
    exact h.original_step hu
  | copy c =>
    obtain ⟨x, hx, hmap⟩ := Option.bind_eq_some_iff.mp ht
    obtain ⟨u, hu, rfl⟩ := Option.map_eq_some_iff.mp hmap
    exact h.copy_step hx hu
  | fork start =>
    cases hcopy : s.copy with
    | some x => simp only [Forking.step, hcopy, reduceCtorEq] at ht
    | none =>
      simp only [Forking.step, hcopy, Option.some.injEq] at ht
      rw [← ht]
      exact h.fork_step hcopy hg start

/-- **`fork` does not duplicate input** in a run in which it is called where nothing is held: what
was taken before it is delivered once at most by the two programs, whatever they call and in which
order; and of each the account is right. -/
theorem once_each_while_none_held {me you : Context} {w : PortState} (hw : Tidy w)
    (hheld : Inputs.NothingHeld w) (hconn : ∀ slot, (w.sock slot).pendConn = false)
    (children : Children) (toldPid : Int) {s : Forking}
    (h : Reachable (restrict (step me you) HoldsNone) (start w children toldPid) s) :
    s.OnceEach ∧ s.original.input.Accounted ∧ ∀ x ∈ s.copy, x.program.input.Accounted := by
  have hinv : s.Inv := by
    refine h.invariant (inv_start hw hheld hconn children toldPid) fun u c v hu hv => ?_
    obtain ⟨hg, hstep⟩ := restrict_eq_some.mp hv
    exact hu.step hg hstep
  exact ⟨hinv.once, hinv.original.accounted, fun x hx => (hinv.copy x hx).accounted⟩

/-- The tables that a program can have come to by its calls on sockets. -/
theorem tidy_of_rep {s : Net} (h : Rep s) (hheld : Inputs.NothingHeld s.port) : Tidy s.port :=
  ⟨h.exact, h.settled, h.shape.apt, fun d _ => (hheld.1 d).1⟩

/-- A call on a socket leaves such a table, where what it obtains is not held yet. -/
theorem tidy_sock {s : Net} (h : Rep s) {w : PortState} (hw : s.port = w) (env : IoEnv) (fd : Int)
    (call : SockCall) (hfresh : s.Fresh (call.run env w fd).obtained)
    (hheld : Inputs.NothingHeld (call.run env w fd).port) : Tidy (call.run env w fd).port := by
  subst hw
  exact tidy_of_rep (h.mild (mild_run env h.shape.apt fd call) hfresh) hheld

theorem tidy_openTable : Tidy Inputs.openTable := by
  have hopened : Rep ((Net.start (okmTableInit 1 .supplied)).after datagramTable [] 0) :=
    ((rep_start (bare_okmTableInit 1 .supplied)).kept_socket 1 .granting afInet sockDgram 0).rep
  have hport : ∀ (s : Net) (w : PortState), (s.after w [] 0).port = w := fun _ _ => rfl
  exact tidy_sock hopened (hport _ _) (Inputs.arrived []) 3 (.bind (some loopback) 16)
    (by decide +kernel) Inputs.nothingHeld_openTable

/-- The standard input and the socket are polled. -/
def asking : ReceiveCall :=
  .input (.poll (some [{ fd := 0, events := pollIn }, { fd := 3, events := pollIn }]) 0
    [fun _ => Inputs.arrived [97, 98]])

def reading : ReceiveCall := .input (.read (Inputs.arrived [98]) true 0 1)

def receiving : ReceiveCall := .input (.recv .idle 3 8 0)

/-- A program that the environment copies, and that begins with no children. -/
def copying : ForkCall := .fork (some (.ok (70, none)))

/-- What is taken is read, and then the program is copied, and both go on. -/
def readFirst : List ForkCall :=
  [.original asking, .original reading, .original receiving, copying, .original reading,
    .copy asking, .copy reading, .copy receiving]

theorem once_each_readFirst :
    ∃ s, Reachable (restrict (step 1 2) HoldsNone) (start Inputs.openTable .empty 0) s ∧
      s.before.gave (.byte Inputs.inputDesc 0) = true ∧ s.copy.isSome = true ∧
      s.times (.byte Inputs.inputDesc 0) = 1 ∧ s.OnceEach ∧ s.original.input.Accounted ∧
      ∀ x ∈ s.copy, x.program.input.Accounted := by
  have hrun : (run (restrict (step 1 2) HoldsNone) (start Inputs.openTable .empty 0)
      readFirst).map (fun s => (s.before.gave (.byte Inputs.inputDesc 0), s.copy.isSome,
        s.times (.byte Inputs.inputDesc 0))) = some (true, true, 1) := by
    decide +kernel
  obtain ⟨s, hs, hview⟩ := Option.map_eq_some_iff.mp hrun
  obtain ⟨hgave, hcopy, htimes⟩ := by simpa only [Prod.mk.injEq] using hview
  have hreach : Reachable (restrict (step 1 2) HoldsNone) (start Inputs.openTable .empty 0) s :=
    ⟨readFirst, hs⟩
  refine ⟨s, hreach, hgave, hcopy, htimes, ?_⟩
  exact once_each_while_none_held tidy_openTable Inputs.nothingHeld_openTable (by decide +kernel)
    .empty 0 hreach

/-- **A byte and a message are delivered twice**: they are taken by a `poll`, the program is copied,
and the original and the copy both read. -/
theorem given_by_both :
    ∃ s, Reachable (step 1 2) (start Inputs.openTable .empty 0) s ∧
      s.before.Took (.byte Inputs.inputDesc 0) ∧ s.times (.byte Inputs.inputDesc 0) = 2 ∧
      s.before.Took (.message Inputs.firstSock 0) ∧ s.times (.message Inputs.firstSock 0) = 2 ∧
      ¬ s.OnceEach := by
  let calls := [.original asking, copying, .original reading, .copy reading, .copy receiving,
    .original receiving]
  have hrun : (run (step 1 2) (start Inputs.openTable .empty 0) calls).map
      (fun s => ((s.before.taken Inputs.inputDesc, s.before.messages Inputs.firstSock),
        s.times (.byte Inputs.inputDesc 0), s.times (.message Inputs.firstSock 0))) =
      some (([.byte 97], [⟨[1, 2, 3], loopbackEnd⟩]), 2, 2) := by
    decide +kernel
  obtain ⟨s, hs, hview⟩ := Option.map_eq_some_iff.mp hrun
  obtain ⟨⟨htaken, hmessages⟩, htimes, htimes'⟩ := by simpa only [Prod.mk.injEq] using hview
  have htook : s.before.Took (.byte Inputs.inputDesc 0) := by
    rw [Receiving.Took, htaken]
    decide
  have htook' : s.before.Took (.message Inputs.firstSock 0) := by
    rw [Receiving.Took, hmessages]
    decide
  refine ⟨s, ⟨calls, hs⟩, htook, htimes, htook', htimes', fun honce => ?_⟩
  have hle := honce _ htook
  rw [htimes] at hle
  exact absurd hle (by decide)

end Forking

end OpenkalMusl
