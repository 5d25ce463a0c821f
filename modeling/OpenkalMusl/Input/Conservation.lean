import OpenkalMusl.Input.Poll

/-!
# What is read is what arrived

A run of `poll`, `select`, `read`, `readv` and `recv` over a table, with what each description took
from its stream and gave the program, and what each datagram socket took and gave. Two descriptors
of one description are duplicates of each other, so the account is the description's.

No byte is lost, repeated or moved, and no message. An end of input is lost in three ways: a read
that delivers a held byte asks for what else has arrived, and does not keep the end that it is told;
a `readv` that has filled a buffer and is told the end in the next returns what it has; and a `recv`
into no buffer takes a held end and reports what it reports of any.

## Main definitions

* `Inputs.step`: the calls, with what they take and give
* `Inputs.Conserved`: what was given and what is held is what was taken
* `Inputs.Whole`: the ends of input are where they arrived
* `Inputs.KeepsEnds`: the calls that lose no end

## Main results

* `conserved_of_reachable`: bytes and messages are conserved in every run
* `whole_while_kept`: no end is lost in a run of calls that lose none
* `end_lost`: a run in which one is
-/

namespace OpenkalMusl

open Transition PortState

/-! ## One description -/

def Item.byte? : Item → Option UInt8
  | .byte b => some b
  | .eof => none

/-- The bytes among what a stream yielded. -/
def bytesOf (l : List Item) : List UInt8 := l.filterMap Item.byte?

namespace Desc

/-- The byte that is held. -/
def heldByte (p : Desc) : List UInt8 := if p.ahead then [p.aheadByte] else []

/-- What is held: a byte, and an end of input. -/
def heldItems (p : Desc) : List Item :=
  (if p.ahead then [.byte p.aheadByte] else []) ++ if p.aheadEof then [.eof] else []

end Desc

/-- What a call that asked for `len` bytes tells the program. -/
def reportOf {ε : Type*} (len : ℕ) : Except ε (List UInt8) → List Item
  | .error _ => []
  | .ok bytes => itemsOf len bytes

/-- What a `recv` gives of a message: the bytes, the sender, and the room there was. -/
structure Receipt where
  data : List UInt8
  sender : Option Endpoint
  room : ℕ
  deriving DecidableEq

/-- The receipt is of the message: its sender, and its data cut to the room. -/
def Receipt.Of (m : Message) (r : Receipt) : Prop :=
  r.data = m.data.take r.room ∧ r.sender = some m.sender

/-- The message that is held. -/
def Sock.heldMessage (s : Sock) : List Message := if s.pendMsg then [pendingMessage s] else []

/-! ## Runs of calls -/

/-- The table, what each description took and gave, and what each datagram socket did. -/
structure Inputs where
  port : PortState
  taken : Fin okmMaxDesc → List Item
  given : Fin okmMaxDesc → List Item
  messages : Fin okmMaxSock → List Message
  receipts : Fin okmMaxSock → List Receipt

inductive InputCall where
  | poll (fds : Option (List PollFd)) (timeoutMs : Int) (rounds : List (ℕ → IoEnv))
  | select (nfds : Int) (rd wr : Option (ℕ → Bool)) (timeoutMs : Int) (rounds : List (ℕ → IoEnv))
  | read (env : IoEnv) (interactive : Bool) (fd : Int) (len : ℕ)
  | readv (interactive : Bool) (fd : Int) (v : List (ℕ × IoEnv))
  | recv (env : IoEnv) (fd : Int) (len flags : ℕ)

/-- The call asks whether there is input. -/
def InputCall.enquires : InputCall → Bool
  | .poll .. | .select .. => true
  | .read .. | .readv .. | .recv .. => false

namespace Inputs

/-- A description took `took` from its stream and gave `gave`. -/
def note (s : Inputs) (w : PortState) (d : Fin okmMaxDesc) (took gave : List Item) : Inputs :=
  { s with
    port := w
    taken := Function.update s.taken d (s.taken d ++ took)
    given := Function.update s.given d (s.given d ++ gave) }

/-- A socket took a message, or gave one. -/
def noteMessage (s : Inputs) (w : PortState) (slot : Fin okmMaxSock) (m : Option Message)
    (r : Option Receipt) : Inputs :=
  { s with
    port := w
    messages := Function.update s.messages slot (s.messages slot ++ m.toList)
    receipts := Function.update s.receipts slot (s.receipts slot ++ r.toList) }

/-- An enquiry. A message is no longer than the largest there is. -/
def enquire (s : Inputs) (a : Asked) : Option Inputs :=
  let q := s.port.waitIn a.env a.d a.ns
  if ∀ m ∈ q.message, m.data.length ≤ okmDgramMax then
    match s.port.sockOf a.d with
    | none => some (s.note q.port a.d q.took [])
    | some slot => some ((s.note q.port a.d q.took []).noteMessage q.port slot q.message none)
  else none

/-- The receipt of a call that received. -/
def receiptOf (len : ℕ) : Except Fault Answer → Option Receipt
  | .error _ => none
  | .ok a => some ⟨a.data, a.endpoint, len⟩

/-- What a `recv` took and gave: of a datagram socket a message, and otherwise of a stream. -/
def afterRecv (s : Inputs) (fd : Int) (len : ℕ) (o : SockOutcome) : Inputs :=
  match s.port.okmDescOf fd with
  | none => { s with port := o.port }
  | some d =>
    match s.port.sockOf d with
    | none => { s with port := o.port }
    | some slot =>
      if (s.port.sock slot).type = sockDgram then
        s.noteMessage o.port slot o.message (receiptOf len o.result)
      else s.note o.port d o.took (reportOf len (o.result.map Answer.data))

/-- What a read took and gave. -/
def afterRead (s : Inputs) (fd : Int) (len : ℕ) (r : Reading) : Inputs :=
  match s.port.okmDescOf fd with
  | none => { s with port := r.port }
  | some d => s.note r.port d r.took (reportOf len r.result)

/-- One call; what is typed at a terminal is not altered. -/
def step (s : Inputs) : InputCall → Option Inputs
  | .poll fds timeoutMs rounds => run enquire s (s.port.okmPoll fds timeoutMs rounds).asked
  | .select nfds rd wr timeoutMs rounds =>
    run enquire s (s.port.okmSelect nfds rd wr timeoutMs rounds).asked
  | .read env interactive fd len =>
    some (s.afterRead fd len (s.port.doRead env {} interactive fd len))
  | .readv interactive fd v =>
    some (s.afterRead fd (v.map Prod.fst).sum (s.port.doReadv {} interactive fd v))
  | .recv env fd len flags => some (s.afterRecv fd len (s.port.okmSockRecv env fd len flags))

/-- A table on which nothing has been taken yet. -/
def start (w : PortState) : Inputs where
  port := w
  taken := fun _ => []
  given := fun _ => []
  messages := fun _ => []
  receipts := fun _ => []

/-- Nothing is held on the table. -/
def NothingHeld (w : PortState) : Prop :=
  (∀ d, (w.desc d).ahead = false ∧ (w.desc d).aheadEof = false) ∧
    ∀ slot, (w.sock slot).pendMsg = false

/-- **What was given and what is held is what was taken**: of every stream the bytes, in order, and
of every datagram socket the messages, each given once. -/
structure Conserved (s : Inputs) : Prop where
  bytes : ∀ d, bytesOf (s.given d) ++ (s.port.desc d).heldByte = bytesOf (s.taken d)
  messages : ∀ slot, ∃ ms, s.messages slot = ms ++ (s.port.sock slot).heldMessage ∧
    List.Forall₂ Receipt.Of ms (s.receipts slot)

/-- Every end of input was reported where it arrived among the bytes, or is held. -/
def Whole (s : Inputs) : Prop :=
  ∀ d, (s.port.desc d).kind ≠ .null → s.given d ++ (s.port.desc d).heldItems = s.taken d

end Inputs

/-! ## What an end of input is lost by -/

/-- What a read bounded by the smallest bound is answered. -/
def nowAnswer (env : IoEnv) : Except KalError (List UInt8) :=
  match env.timeoutRead with
  | none => .error .notSupported
  | some read => read okmNowNs

/-- What a read is answered where nothing is held. -/
def plainAnswer (p : Desc) (env : IoEnv) : Except KalError (List UInt8) :=
  if hasFlag p.flags oNonblock then nowAnswer env else env.streamRead

/-- The answer is an end of input. -/
def isEnd : Except KalError (List UInt8) → Bool
  | .ok [] => true
  | _ => false

/-- The answer has `len` bytes. -/
def isFull (len : ℕ) : Except KalError (List UInt8) → Bool
  | .ok bytes => decide (len ≤ bytes.length)
  | .error _ => false

/-- There is a stream to read. -/
def Desc.hasStream (p : Desc) : Bool := (streamOf p).toOption.isSome

/-- A read delivers a held byte, asks for what else has arrived, and is told that the input ends. -/
def ReadLosesEnd (p : Desc) (env : IoEnv) (len : ℕ) : Prop :=
  p.hasStream = true ∧ p.ahead = true ∧ 1 < len ∧ isEnd (nowAnswer env) = true

instance (p : Desc) (env : IoEnv) (len : ℕ) : Decidable (ReadLosesEnd p env len) :=
  inferInstanceAs (Decidable (_ ∧ _ ∧ _ ∧ _))

/-- A read fills its buffer. -/
def fills (p : Desc) (env : IoEnv) (len : ℕ) : Bool :=
  p.hasStream && if p.ahead then len == 1 || isFull (len - 1) (nowAnswer env)
    else !p.aheadEof && isFull len (plainAnswer p env)

/-- Buffers that are read with nothing held meet an end of input, after those that are filled. -/
def meetsEnd (p : Desc) : List (ℕ × IoEnv) → Bool
  | [] => false
  | (len, env) :: v =>
    if len = 0 then meetsEnd p v
    else isEnd (plainAnswer p env) || isFull len (plainAnswer p env) && meetsEnd p v

/-- A `readv` loses an end in its first buffer, or meets one in another after it filled
the first. -/
def ReadvLosesEnd (p : Desc) : List (ℕ × IoEnv) → Prop
  | [] => False
  | (len, env) :: v =>
    if len = 0 then ReadvLosesEnd p v
    else ReadLosesEnd p env len ∨ fills p env len = true ∧ meetsEnd p v = true

instance ReadvLosesEnd.decidable (p : Desc) : ∀ v, Decidable (ReadvLosesEnd p v)
  | [] => isFalse id
  | (len, env) :: v =>
    have := ReadvLosesEnd.decidable p v
    inferInstanceAs (Decidable (if len = 0 then ReadvLosesEnd p v
      else ReadLosesEnd p env len ∨ fills p env len = true ∧ meetsEnd p v = true))

/-- A `recv` into no buffer takes an end of input that a connection holds. -/
def RecvLosesEnd (w : PortState) (d : Fin okmMaxDesc) (len flags : ℕ) : Prop :=
  len = 0 ∧ (w.desc d).aheadEof = true ∧ otherFlags flags (msgNosignal ||| msgDontwait) = 0 ∧
    ∃ slot, w.sockOf d = some slot ∧ (w.sock slot).type ≠ sockDgram ∧ (w.sock slot).state = .conn

instance (w : PortState) (d : Fin okmMaxDesc) (len flags : ℕ) :
    Decidable (RecvLosesEnd w d len flags) := by
  unfold RecvLosesEnd
  infer_instance

/-! ## What a read takes and gives -/

/-- Holding one thing at most. -/
def Desc.HoldsOne (p : Desc) : Prop := ¬ (p.ahead = true ∧ p.aheadEof = true)

/-- A description gave what it held and took, as far as bytes go, and with the ends of input unless
one was `lost`; it changed in what it holds. -/
structure Exchange (lost : Prop) (p p' : Desc) (took gave : List Item) : Prop where
  frame : ∃ a e, p' = { p with ahead := a, aheadEof := e }
  one : p'.HoldsOne
  bytes : bytesOf (p.heldItems ++ took) = bytesOf (gave ++ p'.heldItems)
  items : p.kind ≠ .null → ¬ lost → p.heldItems ++ took = gave ++ p'.heldItems

theorem bytesOf_append (l m : List Item) : bytesOf (l ++ m) = bytesOf l ++ bytesOf m :=
  List.filterMap_append

theorem bytesOf_map_byte (l : List UInt8) : bytesOf (l.map .byte) = l := by
  simp [bytesOf, List.filterMap_map, Function.comp_def, Item.byte?]

theorem bytesOf_heldItems (p : Desc) : bytesOf p.heldItems = p.heldByte := by
  unfold Desc.heldItems Desc.heldByte
  cases p.ahead <;> cases p.aheadEof <;> rfl

theorem bytesOf_itemsOf_take (len : ℕ) (got : List UInt8) :
    bytesOf (itemsOf len (got.take len)) = got.take len := by
  unfold itemsOf
  split_ifs with hlen hgot
  · rw [hlen, List.take_zero]
    rfl
  · rw [hgot]
    rfl
  · exact bytesOf_map_byte _

theorem itemsOf_of_ne {len : ℕ} {got : List UInt8} (hlen : len ≠ 0) (hgot : got ≠ []) :
    itemsOf len got = got.map .byte := by
  rw [itemsOf, if_neg hlen, if_neg hgot]

theorem heldItems_of_nothing {p : Desc} (ha : p.ahead = false) (he : p.aheadEof = false) :
    p.heldItems = [] := by
  simp [Desc.heldItems, ha, he]

/-- A transfer reports what it takes. -/
theorem reportOf_transferOf (len : ℕ) (r : Except KalError (List UInt8)) :
    reportOf len (transferOf len r).result = (transferOf len r).took := by
  cases r <;> rfl

theorem okmTimedRead_now (env : IoEnv) {len : ℕ} (hlen : len ≠ 0) :
    okmTimedRead env len okmNowNs = transferOf len (nowAnswer env) := by
  unfold okmTimedRead nowAnswer
  cases env.timeoutRead with
  | none => rfl
  | some read => simp only [hlen, if_false]

namespace Exchange

variable {lost : Prop} {p p' : Desc} {took gave : List Item}

/-- Nothing was lost. -/
theorem of_items (frame : ∃ a e, p' = { p with ahead := a, aheadEof := e }) (one : p'.HoldsOne)
    (h : p.heldItems ++ took = gave ++ p'.heldItems) : Exchange lost p p' took gave :=
  ⟨frame, one, congrArg bytesOf h, fun _ _ => h⟩

/-- Nothing that is held was touched, and what was taken was given. -/
theorem same (one : p.HoldsOne) (h : p.heldItems ++ took = took ++ p.heldItems) :
    Exchange lost p p took took :=
  of_items ⟨p.ahead, p.aheadEof, rfl⟩ one h

theorem nothing (one : p.HoldsOne) : Exchange lost p p [] [] :=
  same one (by simp)

theorem mono {lost' : Prop} (h : Exchange lost p p' took gave) (hl : lost → lost') :
    Exchange lost' p p' took gave :=
  ⟨h.frame, h.one, h.bytes, fun hk hn => h.items hk (mt hl hn)⟩

theorem kind (h : Exchange lost p p' took gave) : p'.kind = p.kind := by
  obtain ⟨a, e, rfl⟩ := h.frame
  rfl

/-- What is held does not decide what the stream answers. -/
theorem meetsEnd (h : Exchange lost p p' took gave) (v : List (ℕ × IoEnv)) :
    meetsEnd p' v = OpenkalMusl.meetsEnd p v := by
  obtain ⟨a, e, rfl⟩ := h.frame
  induction v with
  | nil => rfl
  | cons b v ih =>
    obtain ⟨len, env⟩ := b
    unfold OpenkalMusl.meetsEnd
    rw [ih]
    rfl

end Exchange

namespace PortState

@[simp] theorem setDesc_self (w : PortState) (d : Fin okmMaxDesc) : w.setDesc d (w.desc d) = w := by
  have hsame : Function.update w.desc d (w.desc d) = w.desc := Function.update_eq_self ..
  rw [setDesc, hsame]

@[simp] theorem setDesc_at (w : PortState) (d : Fin okmMaxDesc) (p : Desc) :
    (w.setDesc d p).desc d = p := Function.update_self ..

@[simp] theorem okmDescOf_setDesc (w : PortState) (d : Fin okmMaxDesc) (p : Desc) (fd : Int) :
    (w.setDesc d p).okmDescOf fd = w.okmDescOf fd := rfl

/-- What a read that delivers a held byte can do: give the byte alone, be told the end of input and
give the byte alone, or give what else has arrived. -/
theorem readOn_cases (w : PortState) (env : IoEnv) (b : UInt8) (len : ℕ) :
    w.readOn env b len = ⟨w, .ok [b], []⟩ ∨
      (1 < len ∧ isEnd (nowAnswer env) = true ∧ w.readOn env b len = ⟨w, .ok [b], [.eof]⟩) ∨
      ∃ c more, (len ≤ (b :: c :: more).length → isFull (len - 1) (nowAnswer env) = true) ∧
        w.readOn env b len = ⟨w, .ok (b :: c :: more), (c :: more).map .byte⟩ := by
  unfold readOn
  by_cases hmore : 1 < len ∧ okmCanBound env = true
  · obtain ⟨k, hk⟩ : ∃ k, len - 1 = k + 1 := ⟨len - 2, by omega⟩
    rw [if_pos hmore, hk, okmTimedRead_now env (Nat.succ_ne_zero k)]
    cases nowAnswer env with
    | error e => exact Or.inl rfl
    | ok bytes =>
      cases bytes with
      | nil => exact Or.inr (Or.inl ⟨hmore.1, rfl, rfl⟩)
      | cons c rest =>
        refine Or.inr (Or.inr ⟨c, rest.take k, fun hfull => ?_, rfl⟩)
        simp only [List.length_cons, List.length_take] at hfull
        simp only [isFull, List.length_cons, decide_eq_true_eq]
        omega
  · rw [if_neg hmore]
    exact Or.inl rfl

/-- A read that delivers a held byte takes what else has arrived. -/
theorem exchange_readOn (w : PortState) {p : Desc} (hstream : p.hasStream = true)
    (hp : p.ahead = true) (hone : p.HoldsOne) (env : IoEnv) {len : ℕ} (hlen : len ≠ 0) :
    (w.readOn env p.aheadByte len).port = w ∧
      Exchange (ReadLosesEnd p env len) p { p with ahead := false }
        (w.readOn env p.aheadByte len).took
        (reportOf len (w.readOn env p.aheadByte len).result) := by
  have hframe : ∃ a e, { p with ahead := false } = { p with ahead := a, aheadEof := e } :=
    ⟨false, p.aheadEof, rfl⟩
  have hone' : ({ p with ahead := false } : Desc).HoldsOne := fun h => absurd h.1 (by simp)
  have heof : p.aheadEof = false := by simpa [Desc.HoldsOne, hp] using hone
  have hheld : p.heldItems = [.byte p.aheadByte] := by simp [Desc.heldItems, hp, heof]
  have hheld' : ({ p with ahead := false } : Desc).heldItems = [] := heldItems_of_nothing rfl heof
  have hgave : ∀ more, itemsOf len (p.aheadByte :: more) = .byte p.aheadByte :: more.map .byte :=
    fun more => itemsOf_of_ne hlen (List.cons_ne_nil _ _)
  rcases readOn_cases w env p.aheadByte len with h | ⟨hlt, hend, h⟩ | ⟨c, more, -, h⟩
  · rw [h]
    refine ⟨rfl, .of_items hframe hone' ?_⟩
    rw [hheld, hheld', List.append_nil, reportOf, hgave]
    rfl
  · -- the end of input is taken, and not reported
    rw [h]
    refine ⟨rfl, hframe, hone', ?_, fun _ hkept => absurd ⟨hstream, hp, hlt, hend⟩ hkept⟩
    rw [hheld, hheld', List.append_nil, reportOf, hgave]
    rfl
  · rw [h]
    refine ⟨rfl, .of_items hframe hone' ?_⟩
    rw [hheld, hheld', List.append_nil, reportOf, hgave]
    rfl

/-- What is read where nothing is held. -/
def readPlain (w : PortState) (p : Desc) (env : IoEnv) (len : ℕ) : Reading :=
  ⟨w, (transferOf len (plainAnswer p env)).result, (transferOf len (plainAnswer p env)).took⟩

/-- What a read of a description can do. -/
theorem doReadStream_cases {w : PortState} {fd : Int} {d : Fin okmMaxDesc}
    (hd : w.okmDescOf fd = some d) (env : IoEnv) (len : ℕ) :
    (∃ e, w.doReadStream env fd len = ⟨w, .error e, []⟩) ∨
      (((w.desc d).kind = .null ∨ len = 0) ∧ w.doReadStream env fd len = ⟨w, .ok [], []⟩) ∨
      (len ≠ 0 ∧ (w.desc d).hasStream = true ∧ (w.desc d).ahead = true ∧
        w.doReadStream env fd len =
          (w.setDesc d { w.desc d with ahead := false }).readOn env (w.desc d).aheadByte len) ∨
      (len ≠ 0 ∧ (w.desc d).ahead = false ∧ (w.desc d).aheadEof = true ∧
        w.doReadStream env fd len =
          ⟨w.setDesc d { w.desc d with aheadEof := false }, .ok [], []⟩) ∨
      (len ≠ 0 ∧ (w.desc d).hasStream = true ∧ (w.desc d).ahead = false ∧
        (w.desc d).aheadEof = false ∧
        w.doReadStream env fd len = w.readPlain (w.desc d) env len) := by
  unfold doReadStream
  simp only [hd]
  by_cases hnull : (w.desc d).kind = .null
  · rw [if_pos hnull]
    exact Or.inr (Or.inl ⟨Or.inl hnull, rfl⟩)
  rw [if_neg hnull]
  cases hs : streamOf (w.desc d) with
  | error e => exact Or.inl ⟨e, rfl⟩
  | ok h =>
    have hstream : (w.desc d).hasStream = true := by rw [Desc.hasStream, hs]; rfl
    by_cases hlen : len = 0
    · rw [if_pos hlen]
      exact Or.inr (Or.inl ⟨Or.inr hlen, rfl⟩)
    simp only [hlen, if_false, okmTakeAhead]
    -- a byte that is held comes first, then an end of input, and only then the stream
    cases ha : (w.desc d).ahead with
    | true => simp [hlen, hstream]
    | false =>
      cases he : (w.desc d).aheadEof with
      | true => simp [hlen]
      | false =>
        simp only [Bool.false_and, Bool.false_eq_true, if_false, readPlain, plainAnswer]
        split_ifs
        · rw [okmTimedRead_now env hlen]
          simp [hlen, hstream]
        · simp [hlen, hstream]

theorem exchange_readPlain {p : Desc} (ha : p.ahead = false) (he : p.aheadEof = false)
    (hone : p.HoldsOne) (lost : Prop) (w : PortState) (env : IoEnv) (len : ℕ) :
    Exchange lost p p (w.readPlain p env len).took
      (reportOf len (w.readPlain p env len).result) := by
  unfold readPlain
  rw [reportOf_transferOf]
  refine .same hone ?_
  rw [heldItems_of_nothing ha he, List.append_nil, List.nil_append]

/-- **What a read takes and gives**. -/
theorem exchange_doReadStream {w : PortState} {fd : Int} {d : Fin okmMaxDesc}
    (hd : w.okmDescOf fd = some d) (hone : (w.desc d).HoldsOne) (env : IoEnv) (len : ℕ) :
    ∃ p', (w.doReadStream env fd len).port = w.setDesc d p' ∧
      Exchange (ReadLosesEnd (w.desc d) env len) (w.desc d) p' (w.doReadStream env fd len).took
        (reportOf len (w.doReadStream env fd len).result) := by
  have hw : w = w.setDesc d (w.desc d) := (setDesc_self w d).symm
  rcases doReadStream_cases hd env len with ⟨e, h⟩ | ⟨hnone, h⟩ |
    ⟨hlen, hstream, ha, h⟩ | ⟨hlen, ha, he, h⟩ | ⟨hlen, -, ha, he, h⟩
  · rw [h]
    exact ⟨w.desc d, hw, .nothing hone⟩
  · rw [h]
    refine ⟨w.desc d, hw, ⟨_, _, rfl⟩, hone, ?_, fun hk _ => ?_⟩
    · have hempty : bytesOf (itemsOf len []) = [] := by simpa using bytesOf_itemsOf_take len []
      rw [List.append_nil, bytesOf_append, reportOf, hempty, List.nil_append]
    · -- the null device ends at once, and is no stream
      have hlen : len = 0 := hnone.resolve_left hk
      simp [reportOf, itemsOf, hlen]
  · rw [h]
    obtain ⟨hport, hex⟩ := exchange_readOn
      (w.setDesc d { w.desc d with ahead := false }) hstream ha hone env hlen
    exact ⟨_, hport, hex⟩
  · rw [h]
    refine ⟨_, rfl, .of_items ⟨(w.desc d).ahead, false, rfl⟩ (fun hboth => nomatch hboth.2) ?_⟩
    simp [Desc.heldItems, ha, he, reportOf, itemsOf, hlen]
  · rw [h]
    exact ⟨w.desc d, hw, exchange_readPlain ha he hone _ w env len⟩

theorem doRead_plain (w : PortState) (env : IoEnv) (interactive : Bool) (fd : Int) (len : ℕ) :
    w.doRead env {} interactive fd len = w.doReadStream env fd len := by
  unfold doRead
  simp only [ne_eq, not_true_eq_false, false_and, if_false]
  split <;> rfl

/-- A read that fills its buffer leaves nothing held. -/
theorem nothing_of_full {w : PortState} {fd : Int} {d : Fin okmMaxDesc}
    (hd : w.okmDescOf fd = some d) (hone : (w.desc d).HoldsOne) {env : IoEnv} {len : ℕ}
    (hlen : len ≠ 0) {bytes : List UInt8} (hok : (w.doReadStream env fd len).result = .ok bytes)
    (hfull : len ≤ bytes.length) :
    fills (w.desc d) env len = true ∧ ((w.doReadStream env fd len).port.desc d).ahead = false ∧
      ((w.doReadStream env fd len).port.desc d).aheadEof = false := by
  have hempty : ∀ {bs : List UInt8}, (Except.ok [] : Except Errno _) = .ok bs →
    ¬ len ≤ bs.length := by
    rintro bs ⟨⟩
    simpa using hlen
  rcases doReadStream_cases hd env len with ⟨e, h⟩ | ⟨-, h⟩ | ⟨-, hstream, ha, h⟩ |
    ⟨-, ha, he, h⟩ | ⟨-, hstream, ha, he, h⟩
  · rw [h] at hok
    cases hok
  · rw [h] at hok
    exact absurd hfull (hempty hok)
  · have he : (w.desc d).aheadEof = false := by simpa [Desc.HoldsOne, ha] using hone
    rw [h] at hok ⊢
    rcases readOn_cases (w.setDesc d { w.desc d with ahead := false }) env (w.desc d).aheadByte len
      with h' | ⟨hlt, -, h'⟩ | ⟨c, more, hmore, h'⟩
    · rw [h'] at hok ⊢
      cases hok
      have hone : len = 1 := by simp at hfull; omega
      exact ⟨by simp [fills, hstream, ha, hone], by simp [he]⟩
    · rw [h'] at hok
      cases hok
      simp at hfull
      omega
    · rw [h'] at hok ⊢
      cases hok
      exact ⟨by simp [fills, hstream, ha, hmore hfull], by simp [he]⟩
  · rw [h] at hok
    exact absurd hfull (hempty hok)
  · rw [h] at hok ⊢
    refine ⟨?_, ha, he⟩
    simp only [readPlain, transferOf] at hok
    cases hans : plainAnswer (w.desc d) env with
    | error e => simp [hans] at hok
    | ok got =>
      simp only [hans, Except.ok.injEq] at hok
      have hgot : len ≤ got.length := by
        rw [← hok, List.length_take] at hfull
        omega
      simp [fills, hstream, ha, he, hans, isFull, hgot]

/-- The bytes of a result. -/
def givenBytes (r : Except Errno (List UInt8)) : List UInt8 := r.toOption.getD []

/-- What `readv` reads where nothing is held: the bytes it takes, and no end unless it meets one. -/
theorem doReadv_nothing {w : PortState} {fd : Int} {d : Fin okmMaxDesc}
    (hd : w.okmDescOf fd = some d) (ha : (w.desc d).ahead = false)
    (he : (w.desc d).aheadEof = false) (interactive : Bool) (v : List (ℕ × IoEnv)) :
    (w.doReadv {} interactive fd v).port = w ∧
      bytesOf (w.doReadv {} interactive fd v).took =
        givenBytes (w.doReadv {} interactive fd v).result ∧
      ((w.desc d).kind ≠ .null → meetsEnd (w.desc d) v = false →
        (w.doReadv {} interactive fd v).took =
          (givenBytes (w.doReadv {} interactive fd v).result).map .byte) := by
  induction v with
  | nil => exact ⟨rfl, rfl, fun _ _ => rfl⟩
  | cons b v ih =>
    obtain ⟨len, env⟩ := b
    unfold doReadv meetsEnd
    by_cases hlen : len = 0
    · simp only [hlen, if_true]
      exact ih
    simp only [hlen, if_false, doRead_plain]
    rcases doReadStream_cases hd env len with ⟨e, h⟩ | ⟨hnone, h⟩ | ⟨-, -, ha', -⟩ |
      ⟨-, -, he', -⟩ | ⟨-, -, -, -, h⟩
    · rw [h]
      exact ⟨rfl, rfl, fun _ _ => rfl⟩
    · have hpos : ([] : List UInt8).length < len := Nat.pos_of_ne_zero hlen
      rw [h]
      simp only [hpos, if_true]
      exact ⟨trivial, rfl, fun _ _ => rfl⟩
    · rw [ha] at ha'
      cases ha'
    · rw [he] at he'
      cases he'
    · rw [h]
      unfold readPlain
      cases plainAnswer (w.desc d) env with
      | error e => exact ⟨rfl, rfl, fun _ _ => rfl⟩
      | ok got =>
        simp only [transferOf]
        by_cases hshort : (got.take len).length < len
        · -- a buffer that is not filled is the last
          simp only [hshort, if_true]
          refine ⟨trivial, bytesOf_itemsOf_take len got, fun _ hmeets => ?_⟩
          have hgot : got.take len ≠ [] := by
            cases got with
            | nil => simp [isEnd] at hmeets
            | cons c rest =>
              obtain ⟨k, rfl⟩ := Nat.exists_eq_succ_of_ne_zero hlen
              exact List.cons_ne_nil _ _
          exact itemsOf_of_ne hlen hgot
        · have hgot : got.take len ≠ [] := by
            intro hnil
            rw [hnil] at hshort
            exact hshort (Nat.pos_of_ne_zero hlen)
          have hfull : isFull len (.ok got) = true := by
            rw [List.length_take] at hshort
            simp only [isFull, decide_eq_true_eq]
            omega
          simp only [hshort, if_false, itemsOf_of_ne hlen hgot]
          obtain ⟨hport, hbytes, hitems⟩ := ih
          refine ⟨hport, ?_, fun hk hmeets => ?_⟩
          · rw [bytesOf_append, bytesOf_map_byte, hbytes]
            rfl
          · have hmeets' : meetsEnd (w.desc d) v = false := by
              simp only [hfull, Bool.true_and, Bool.or_eq_false_iff] at hmeets
              exact hmeets.2
            rw [hitems hk hmeets', ← List.map_append]
            rfl

/-- **What `readv` takes and gives**. -/
theorem exchange_doReadv {w : PortState} {fd : Int} {d : Fin okmMaxDesc}
    (hd : w.okmDescOf fd = some d) (hone : (w.desc d).HoldsOne) (interactive : Bool)
    (v : List (ℕ × IoEnv)) :
    ∃ p', (w.doReadv {} interactive fd v).port = w.setDesc d p' ∧
      Exchange (ReadvLosesEnd (w.desc d) v) (w.desc d) p' (w.doReadv {} interactive fd v).took
        (reportOf (v.map Prod.fst).sum (w.doReadv {} interactive fd v).result) := by
  induction v with
  | nil => exact ⟨w.desc d, (setDesc_self w d).symm, .nothing hone⟩
  | cons b v ih =>
    obtain ⟨len, env⟩ := b
    unfold doReadv ReadvLosesEnd
    by_cases hlen : len = 0
    · simpa [hlen] using ih
    have hsum : (((len, env) :: v).map Prod.fst).sum ≠ 0 := by
      simp only [List.map_cons, List.sum_cons]
      omega
    have hreport : ∀ got, itemsOf (((len, env) :: v).map Prod.fst).sum got = itemsOf len got := by
      intro got
      rw [itemsOf, if_neg hsum, itemsOf, if_neg hlen]
    simp only [hlen, if_false, doRead_plain]
    obtain ⟨p', hport, hex⟩ := exchange_doReadStream hd hone env len
    cases hres : (w.doReadStream env fd len).result with
    | error e =>
      rw [hres] at hex
      exact ⟨p', hport, hex.mono Or.inl⟩
    | ok bytes =>
      rw [hres] at hex
      by_cases hshort : bytes.length < len
      · simp only [hshort, if_true]
        refine ⟨p', hport, ?_⟩
        rw [hres, reportOf, hreport]
        exact hex.mono Or.inl
      · -- the buffer is filled: nothing is held any more, and the rest is what the stream yields
        obtain ⟨hfills, ha, he⟩ := nothing_of_full hd hone hlen hres (Nat.le_of_not_lt hshort)
        have hbytes : bytes ≠ [] := by
          rintro rfl
          exact hshort (Nat.pos_of_ne_zero hlen)
        have hd' : (w.setDesc d p').okmDescOf fd = some d := hd
        rw [hport, setDesc_at] at ha he
        obtain ⟨hport', hbs, his⟩ := doReadv_nothing hd' (by rwa [setDesc_at])
          (by rwa [setDesc_at]) interactive v
        simp only [hshort, if_false, hport]
        rw [setDesc_at] at his
        have hheld : p'.heldItems = [] := heldItems_of_nothing ha he
        have hgave : reportOf (((len, env) :: v).map Prod.fst).sum
            (.ok (bytes ++ givenBytes ((w.setDesc d p').doReadv {} interactive fd v).result) :
              Except Errno _) =
            bytes.map .byte ++
              (givenBytes ((w.setDesc d p').doReadv {} interactive fd v).result).map .byte := by
          rw [reportOf, itemsOf_of_ne hsum (by simp [hbytes]), List.map_append]
        have hfirst : reportOf len (.ok bytes : Except Errno _) = bytes.map .byte :=
          itemsOf_of_ne hlen hbytes
        refine ⟨p', hport', hex.frame, hex.one, ?_, fun hk hkept => ?_⟩
        · show bytesOf _ = bytesOf (reportOf _ (.ok (bytes ++ givenBytes _)) ++ _)
          rw [hgave, hheld, List.append_nil, ← List.append_assoc, bytesOf_append, hex.bytes, hheld,
            List.append_nil, hfirst, hbs, bytesOf_append, bytesOf_map_byte, bytesOf_map_byte]
        · rw [not_or] at hkept
          have hmeets : meetsEnd (w.desc d) v = false := by simpa [hfills] using hkept.2
          have hkind : p'.kind ≠ .null := by rwa [hex.kind]
          have hmeets' : meetsEnd p' v = false := by rwa [hex.meetsEnd]
          show _ = reportOf _ (.ok (bytes ++ givenBytes _)) ++ _
          rw [hgave, hheld, List.append_nil, ← List.append_assoc, hex.items hk hkept.1, hheld,
            List.append_nil, hfirst, his hkind hmeets']

theorem reportOf_gave (w : PortState) (len : ℕ) (t : Transfer) :
    reportOf len ((w.gave t).result.map Answer.data) = reportOf len t.result := by
  obtain ⟨e | bytes, took⟩ := t <;> rfl

/-- A transfer that `recv` makes reports what it takes, and takes nothing into no buffer. -/
theorem recv_transfer (env : IoEnv) (len ns : ℕ) (t : Transfer)
    (ht : t = if ns ≠ 0 then okmTimedRead env len ns else transferOf len env.streamRead) :
    reportOf len t.result = t.took ∧ (len = 0 → t.took = []) := by
  have hzero : ∀ r, len = 0 → (transferOf len r).took = [] := by
    rintro (e | bytes) hlen
    · rfl
    · rw [transferOf, itemsOf, if_pos hlen]
  rw [ht]
  split_ifs
  · unfold okmTimedRead
    cases env.timeoutRead with
    | none => exact ⟨rfl, fun _ => rfl⟩
    | some read =>
      simp only
      split_ifs with hlen
      · exact ⟨by rw [reportOf, itemsOf, if_pos hlen], fun _ => rfl⟩
      · exact ⟨reportOf_transferOf len _, hzero _⟩
  · exact ⟨reportOf_transferOf len _, hzero _⟩

/-- **What `recv` takes and gives of a connection**. -/
theorem exchange_recvStream (w : PortState) {d : Fin okmMaxDesc} (hone : (w.desc d).HoldsOne)
    (env : IoEnv) (slot : Fin okmMaxSock) (len flags : ℕ) :
    ∃ p', (w.recvStream env d slot len flags).port = w.setDesc d p' ∧
      Exchange (len = 0 ∧ (w.desc d).aheadEof = true) (w.desc d) p'
        (w.recvStream env d slot len flags).took
        (reportOf len ((w.recvStream env d slot len flags).result.map Answer.data)) := by
  have hw : w = w.setDesc d (w.desc d) := (setDesc_self w d).symm
  unfold recvStream okmTakeAhead
  by_cases hbyte : ((w.desc d).ahead && len != 0) = true
  · -- the byte alone
    obtain ⟨ha, hlen⟩ : (w.desc d).ahead = true ∧ len ≠ 0 := by simpa using hbyte
    have he : (w.desc d).aheadEof = false := by simpa [Desc.HoldsOne, ha] using hone
    simp only [hbyte, if_true, reportOf_gave]
    refine ⟨_, rfl, .of_items ⟨false, (w.desc d).aheadEof, rfl⟩ (fun h => nomatch h.1) ?_⟩
    simp [Desc.heldItems, ha, he, reportOf, itemsOf, hlen, gave]
  · rw [if_neg hbyte]
    by_cases he : (w.desc d).aheadEof = true
    · have ha : (w.desc d).ahead = false := by
        rw [Bool.eq_false_iff]
        exact fun ha => hone ⟨ha, he⟩
      simp only [he, if_true, reportOf_gave]
      have hempty : bytesOf (itemsOf len []) = [] := by simpa using bytesOf_itemsOf_take len []
      refine ⟨_, rfl, ⟨(w.desc d).ahead, false, rfl⟩, (fun h => nomatch h.2), ?_, fun _ hkept => ?_⟩
      · simp only [Desc.heldItems, ha, he, gave, reportOf, bytesOf_append, hempty]
        rfl
      · have hlen : len ≠ 0 := fun hlen => hkept ⟨hlen, trivial⟩
        simp [Desc.heldItems, ha, he, reportOf, itemsOf, hlen, gave]
    · have he' : (w.desc d).aheadEof = false := by simpa using he
      simp only [he', Bool.false_eq_true, if_false, reportOf_gave]
      generalize ht : (if boundOf (w.desc d) (w.sock slot) flags true ≠ 0 then
        okmTimedRead env len (boundOf (w.desc d) (w.sock slot) flags true)
        else transferOf len env.streamRead) = t
      obtain ⟨hreport, hzero⟩ := recv_transfer env len _ t ht.symm
      rw [hreport]
      refine ⟨w.desc d, hw, .same hone ?_⟩
      -- a byte is held only where there is no room for it, and then nothing is taken
      cases ha : (w.desc d).ahead with
      | false => rw [heldItems_of_nothing ha he', List.append_nil, List.nil_append]
      | true =>
        have hlen : len = 0 := by simpa [ha] using hbyte
        rw [gave, hzero hlen, List.append_nil, List.nil_append]

end PortState

namespace Inputs

/-! ## What a call can do -/

/-- What a call can do: nothing, take from a stream and give of it, or take a message and give one.
Where no end was `lost`, the ends of input stay where they were among the bytes. -/
inductive Moved (lost : Prop) (s : Inputs) : Inputs → Prop
  | same : Moved lost s s
  | stream (d : Fin okmMaxDesc) (p' : Desc) (took gave : List Item) (one : p'.HoldsOne)
    (kind : p'.kind = (s.port.desc d).kind)
    (bytes : bytesOf ((s.port.desc d).heldItems ++ took) = bytesOf (gave ++ p'.heldItems))
    (items : p'.kind ≠ .null → ¬ lost → (s.port.desc d).heldItems ++ took = gave ++ p'.heldItems) :
    Moved lost s (s.note (s.port.setDesc d p') d took gave)
  | message (slot : Fin okmMaxSock) (s' : Sock) (m : Option Message) (r : Option Receipt)
    (ms : List Message)
    (held : (s.port.sock slot).heldMessage ++ m.toList = ms ++ s'.heldMessage)
    (gave : List.Forall₂ Receipt.Of ms r.toList) :
    Moved lost s (s.noteMessage (s.port.setSlot slot s') slot m r)

theorem note_nil (s : Inputs) (w : PortState) (d : Fin okmMaxDesc) :
    s.note w d [] [] = { s with port := w } := by
  unfold note
  rw [List.append_nil, List.append_nil, Function.update_eq_self, Function.update_eq_self]

theorem noteMessage_none (s : Inputs) (w : PortState) (slot : Fin okmMaxSock) :
    s.noteMessage w slot none none = { s with port := w } := by
  unfold noteMessage
  simp only [Option.toList_none]
  rw [List.append_nil, List.append_nil, Function.update_eq_self, Function.update_eq_self]

/-- A socket's slot changed, and not the message that is held. -/
theorem Moved.slot {lost : Prop} {s : Inputs} {slot : Fin okmMaxSock} {s' : Sock}
    (h : s'.heldMessage = (s.port.sock slot).heldMessage) :
    Moved lost s { s with port := s.port.setSlot slot s' } := by
  have hm : Moved lost s (s.noteMessage (s.port.setSlot slot s') slot none none) :=
    .message slot s' none none [] (by simp [h]) .nil
  rwa [noteMessage_none] at hm

/-- A description gave and took. -/
theorem Moved.of_exchange {lost : Prop} {s : Inputs} {d : Fin okmMaxDesc} {p' : Desc}
    {took gave : List Item} (h : Exchange lost (s.port.desc d) p' took gave) :
    Moved lost s (s.note (s.port.setDesc d p') d took gave) :=
  .stream d p' took gave h.one h.kind h.bytes fun hk hn => h.items (h.kind ▸ hk) hn

theorem Moved.mono {lost lost' : Prop} {s t : Inputs} (h : Moved lost s t) (hl : lost → lost') :
    Moved lost' s t := by
  cases h with
  | same => exact .same
  | stream d p' took gave one kind bytes items =>
    exact .stream d p' took gave one kind bytes fun hk hn => items hk (mt hl hn)
  | message slot s' m r ms held gave => exact .message slot s' m r ms held gave

/-- A message that is received by an enquiry is the one that is held. -/
theorem heldMessage_keep (s : Sock) {m : Message} (hm : m.data.length ≤ okmDgramMax) :
    Sock.heldMessage { s with
      buf := some (m.data.take okmDgramMax), pendLen := (m.data.take okmDgramMax).length,
      pendFrom := m.sender, pendMsg := true } = [m] := by
  have hall : m.data.take okmDgramMax = m.data := List.take_of_length_le hm
  simp [Sock.heldMessage, pendingMessage, hall]

/-- What an enquiry takes of a stream is what the description holds afterwards. -/
theorem moved_ahead {s : Inputs} {d : Fin okmMaxDesc} {p' : Desc}
    (hnone : (s.port.desc d).ahead = false ∧ (s.port.desc d).aheadEof = false)
    (hone : p'.HoldsOne) (hkind : p'.kind = (s.port.desc d).kind) :
    Moved False s (s.note (s.port.setDesc d p') d p'.heldItems []) := by
  have hitems : (s.port.desc d).heldItems ++ p'.heldItems = [] ++ p'.heldItems := by
    rw [heldItems_of_nothing hnone.1 hnone.2]
  exact .stream d p' _ _ hone hkind (congrArg bytesOf hitems) fun _ _ => hitems

/-- **What an enquiry does.** -/
theorem moved_enquire {s t : Inputs} {a : Asked} (h : s.enquire a = some t) :
    Moved False s t := by
  have hw := waited_waitIn s.port a.env a.d a.ns
  unfold enquire at h
  generalize s.port.waitIn a.env a.d a.ns = q at hw h
  simp only [Option.ite_none_right_eq_some] at h
  obtain ⟨hsize, h⟩ := h
  -- a slot takes no part where no message is taken
  have hstream : q.message = none → t = s.note q.port a.d q.took [] := by
    intro hno
    cases hslot : s.port.sockOf a.d with
    | none => simpa [hslot, eq_comm] using h
    | some slot =>
      simp only [hslot, hno, noteMessage_none, Option.some.injEq] at h
      exact h.symm
  cases hw with
  | same result =>
    rw [hstream rfl, note_nil]
    exact .same
  | byte b hnone =>
    rw [hstream rfl]
    have hheld : ({ s.port.desc a.d with ahead := true, aheadByte := b } : Desc).heldItems =
        [.byte b] := by simp [Desc.heldItems, hnone.2]
    have hone : ({ s.port.desc a.d with ahead := true, aheadByte := b } : Desc).HoldsOne :=
      fun hboth => by simp [hnone.2] at hboth
    have hm := moved_ahead hnone hone rfl
    rwa [hheld] at hm
  | eof hnone =>
    rw [hstream rfl]
    have hheld : ({ s.port.desc a.d with aheadEof := true } : Desc).heldItems = [.eof] := by
      simp [Desc.heldItems, hnone.1]
    have hone : ({ s.port.desc a.d with aheadEof := true } : Desc).HoldsOne :=
      fun hboth => by simp [hnone.1] at hboth
    have hm := moved_ahead hnone hone rfl
    rwa [hheld] at hm
  | conn slot c hslot hlisten hnone =>
    rw [hstream rfl, note_nil]
    exact .slot rfl
  | buf slot result hslot hdgram hnone =>
    rw [hstream rfl, note_nil]
    exact .slot (by simp [Sock.heldMessage, hnone])
  | message slot m hslot hdgram hnone =>
    simp only [hslot, note_nil, Option.some.injEq] at h
    subst h
    have hm : m.data.length ≤ okmDgramMax := hsize m rfl
    rw [keepMessage_obtainBuf]
    refine .message slot _ (some m) none [] ?_ .nil
    rw [heldMessage_keep _ hm]
    simp [Sock.heldMessage, hnone]

/-- What a read does, by what it takes and gives. -/
theorem moved_afterRead {s : Inputs} {fd : Int} {len : ℕ} {r : Reading} {lost : Prop}
    (hnone : s.port.okmDescOf fd = none → r.port = s.port)
    (hex : ∀ d, s.port.okmDescOf fd = some d → ∃ p', r.port = s.port.setDesc d p' ∧
      Exchange lost (s.port.desc d) p' r.took (reportOf len r.result)) :
    Moved lost s (s.afterRead fd len r) := by
  unfold afterRead
  cases hd : s.port.okmDescOf fd with
  | none =>
    rw [hnone hd]
    exact .same
  | some d =>
    obtain ⟨p', hport, h⟩ := hex d hd
    rw [hport]
    exact .of_exchange h

theorem doReadv_none {w : PortState} {fd : Int} (h : w.okmDescOf fd = none) (interactive : Bool)
    (v : List (ℕ × IoEnv)) : (w.doReadv {} interactive fd v).port = w := by
  induction v with
  | nil => rfl
  | cons b v ih =>
    obtain ⟨len, env⟩ := b
    unfold doReadv
    split_ifs
    · exact ih
    · simp [doRead_plain, doReadStream, h]

/-- What `recv` does of a datagram socket: it gives the message that is held, or one
that it takes. -/
theorem moved_recvDatagram (s : Inputs) (w : PortState) (env : IoEnv) (d : Fin okmMaxDesc)
    (slot : Fin okmMaxSock) (len flags : ℕ) (obtained : List Resource) {s' : Sock}
    (hw : w = s.port.setSlot slot s') (hheld : s'.heldMessage = (s.port.sock slot).heldMessage)
    (lost : Prop) :
    Moved lost s (s.noteMessage (w.recvDatagram env d slot len flags obtained).port slot
      (w.recvDatagram env d slot len flags obtained).message
      (receiptOf len (w.recvDatagram env d slot len flags obtained).result)) := by
  have hsock : w.sock slot = s' := by rw [hw, setSlot_sock]
  -- a message that the call itself receives
  have hreceived : ∀ r, s'.pendMsg = false → Moved lost s
      (s.noteMessage (w.received obtained len r).port slot (w.received obtained len r).message
        (receiptOf len (w.received obtained len r).result)) := by
    rintro (e | m) hno
    · show Moved lost s (s.noteMessage w slot none none)
      rw [noteMessage_none, hw]
      exact .slot hheld
    · rw [hw]
      refine .message slot s' (some m) (some _) [m] ?_ (.cons ⟨rfl, rfl⟩ .nil)
      have hnone : s'.heldMessage = [] := by simp [Sock.heldMessage, hno]
      rw [← hheld, hnone]
      rfl
  unfold recvDatagram
  simp only [hsock]
  by_cases hpend : s'.pendMsg = true
  · rw [if_pos hpend]
    have hput : w.setSlot slot { s' with pendMsg := false } =
        s.port.setSlot slot { s' with pendMsg := false } := by simp [hw, setSlot]
    rw [hput]
    refine .message slot _ none (some _) [pendingMessage s'] ?_ (.cons ⟨rfl, rfl⟩ .nil)
    rw [← hheld]
    simp [Sock.heldMessage, hpend]
  · have hno : s'.pendMsg = false := by simpa using hpend
    rw [if_neg hpend]
    split_ifs
    · cases env.timeoutRecvFrom with
      | none =>
        show Moved lost s (s.noteMessage w slot none none)
        rw [noteMessage_none, hw]
        exact .slot hheld
      | some recv => exact hreceived _ hno
    · exact hreceived _ hno

/-- A call that was refused of a datagram socket. -/
theorem moved_refused (s : Inputs) (slot : Fin okmMaxSock) (lost : Prop) :
    Moved lost s (s.noteMessage s.port slot none none) := by
  rw [noteMessage_none]
  exact .same

/-- **What `recv` does.** -/
theorem moved_recv (s : Inputs) (env : IoEnv) (fd : Int) (len flags : ℕ)
    (hone : ∀ d, (s.port.desc d).HoldsOne) :
    Moved (∃ d, s.port.okmDescOf fd = some d ∧ RecvLosesEnd s.port d len flags) s
      (s.afterRecv fd len (s.port.okmSockRecv env fd len flags)) := by
  unfold afterRecv okmSockRecv
  rcases onSocket_cases s.port fd fun d slot => s.port.recvSlot env d slot len flags
    with ⟨e, he, hno⟩ | ⟨d, slot, hd, hs, he⟩
  · rw [he]
    cases hd : s.port.okmDescOf fd with
    | none => exact .same
    | some d =>
      cases hs : s.port.sockOf d with
      | none =>
        simp only [hs]
        exact .same
      | some slot => exact absurd hs (hno d slot hd)
  rw [he]
  simp only [hd, hs]
  unfold recvSlot
  by_cases hflags : otherFlags flags (msgNosignal ||| msgDontwait) = 0
  · by_cases htype : (s.port.sock slot).type = sockDgram
    · simp only [hflags, htype, ne_eq, not_true_eq_false, if_false, if_true]
      have hself : s.port = s.port.setSlot slot (s.port.sock slot) := (setSlot_same rfl).symm
      cases env.haveDgram with
      | false => exact moved_refused s slot _
      | true =>
        simp only [Bool.true_eq_false, if_false, withDatagram]
        by_cases hnew : (s.port.sock slot).state = .new
        · simp only [hnew, if_true]
          cases env.datagramOpen with
          | error e => exact moved_refused s slot _
          | ok h =>
            exact moved_recvDatagram s (s.port.becomeDatagram slot h) env d slot len
              flags _ rfl rfl _
        · simp only [hnew, if_false]
          exact moved_recvDatagram s s.port env d slot len flags [] hself rfl _
    · simp only [hflags, htype, ne_eq, not_true_eq_false, if_false]
      by_cases hconn : (s.port.sock slot).state = .conn
      · simp only [hconn, not_true_eq_false, if_false]
        obtain ⟨p', hport, hex⟩ := exchange_recvStream s.port (hone d) env slot len flags
        rw [hport]
        refine .of_exchange (hex.mono fun hlost => ?_)
        exact ⟨d, rfl, hlost.1, hlost.2, hflags, slot, hs, htype, hconn⟩
      · simp only [hconn, not_false_eq_true, if_true, refuse]
        rw [show reportOf len _ = [] from rfl, note_nil]
        exact .same
  · simp only [hflags, ne_eq, not_false_eq_true, if_true, refuse]
    split_ifs
    · exact moved_refused s slot _
    · rw [show reportOf len _ = [] from rfl, note_nil]
      exact .same

/-! ## Along a run -/

/-- The calls that lose no end of input. -/
def KeepsEnds (s : Inputs) : InputCall → Prop
  | .read env _ fd len =>
    ∀ d, s.port.okmDescOf fd = some d → ¬ ReadLosesEnd (s.port.desc d) env len
  | .readv _ fd v => ∀ d, s.port.okmDescOf fd = some d → ¬ ReadvLosesEnd (s.port.desc d) v
  | .recv _ fd len flags =>
    ∀ d, s.port.okmDescOf fd = some d → ¬ RecvLosesEnd s.port d len flags
  | _ => True

instance (s : Inputs) (c : InputCall) : Decidable (s.KeepsEnds c) := by
  unfold KeepsEnds
  cases c <;> infer_instance

/-- What is conserved, with no description holding two things. -/
structure Sound (s : Inputs) : Prop extends Conserved s where
  one : ∀ d, (s.port.desc d).HoldsOne

/-- The account of one description, and those of the others as they were. -/
theorem note_account {s : Inputs} {d : Fin okmMaxDesc} {p' : Desc} {took gave : List Item}
    {P : Desc → List Item → List Item → Prop}
    (hall : ∀ e, P (s.port.desc e) (s.given e) (s.taken e))
    (hd : P p' (s.given d ++ gave) (s.taken d ++ took)) (e : Fin okmMaxDesc) :
    P ((s.note (s.port.setDesc d p') d took gave).port.desc e)
      ((s.note (s.port.setDesc d p') d took gave).given e)
      ((s.note (s.port.setDesc d p') d took gave).taken e) := by
  rcases eq_or_ne e d with rfl | hne
  · simp only [note, setDesc_desc, Function.update_self]
    exact hd
  · simp only [note, setDesc_desc, Function.update_of_ne hne]
    exact hall e

theorem Sound.moved {lost : Prop} {s t : Inputs} (hs : Sound s) (h : Moved lost s t) : Sound t := by
  cases h with
  | same => exact hs
  | stream d p' took gave one kind bytes items =>
    have hbytes : bytesOf (s.given d ++ gave) ++ p'.heldByte = bytesOf (s.taken d ++ took) := by
      rw [bytesOf_append, bytesOf_append, bytesOf_heldItems, bytesOf_heldItems] at bytes
      rw [bytesOf_append, bytesOf_append, ← hs.bytes d, List.append_assoc, List.append_assoc, bytes]
    refine ⟨⟨?_, hs.messages⟩, ?_⟩
    · exact note_account
        (P := fun p given taken => bytesOf given ++ p.heldByte = bytesOf taken) hs.bytes hbytes
    · exact note_account (P := fun p _ _ => p.HoldsOne) hs.one one
  | message slot s' m r ms held gave =>
    refine ⟨⟨hs.bytes, fun e => ?_⟩, hs.one⟩
    rcases eq_or_ne e slot with rfl | hne
    · obtain ⟨ms₀, hms₀, hgave₀⟩ := hs.messages e
      refine ⟨ms₀ ++ ms, ?_, ?_⟩
      · simp only [noteMessage, setSlot_sock, Function.update_self]
        rw [hms₀, List.append_assoc, List.append_assoc, held]
      · simp only [noteMessage, Function.update_self]
        exact List.rel_append hgave₀ gave
    · simp only [noteMessage, setSlot, Function.update_of_ne hne]
      exact hs.messages e

theorem Whole.moved {lost : Prop} {s t : Inputs} (hs : Whole s) (hkept : ¬ lost)
    (h : Moved lost s t) : Whole t := by
  cases h with
  | same => exact hs
  | stream d p' took gave one kind bytes items =>
    refine note_account
      (P := fun p given taken => p.kind ≠ .null → given ++ p.heldItems = taken) hs fun hk => ?_
    have hd := hs d (kind ▸ hk)
    rw [← hd, List.append_assoc, List.append_assoc, items hk hkept]
  | message slot s' m r ms held gave => exact hs

/-- **What a call that reads does.** -/
theorem moved_reads {s t : Inputs} (hone : ∀ d, (s.port.desc d).HoldsOne) {c : InputCall}
    (hc : c.enquires = false) (h : s.step c = some t) : Moved (¬ s.KeepsEnds c) s t := by
  cases c with
  | poll fds timeoutMs rounds => cases hc
  | select nfds rd wr timeoutMs rounds => cases hc
  | read env interactive fd len =>
    cases h
    rw [doRead_plain]
    refine moved_afterRead (fun hd => by simp [doReadStream, hd]) fun d hd => ?_
    obtain ⟨p', hport, hex⟩ := exchange_doReadStream hd (hone d) env len
    exact ⟨p', hport, hex.mono fun hlost hkeeps => hkeeps d hd hlost⟩
  | readv interactive fd v =>
    cases h
    refine moved_afterRead (fun hd => doReadv_none hd interactive v) fun d hd => ?_
    obtain ⟨p', hport, hex⟩ := exchange_doReadv hd (hone d) interactive v
    exact ⟨p', hport, hex.mono fun hlost hkeeps => hkeeps d hd hlost⟩
  | recv env fd len flags =>
    cases h
    refine (moved_recv s env fd len flags hone).mono ?_
    rintro ⟨d, hd, hlost⟩ hkeeps
    exact hkeeps d hd hlost

/-- What a call does: enquiries, or the one transfer of a call that reads. -/
theorem moved_step {s t : Inputs} (hone : ∀ d, (s.port.desc d).HoldsOne) {c : InputCall}
    (h : s.step c = some t) :
    (∃ asked, run enquire s asked = some t) ∨ Moved (¬ s.KeepsEnds c) s t := by
  cases hc : c.enquires with
  | false => exact Or.inr (moved_reads hone hc h)
  | true =>
    cases c with
    | poll fds timeoutMs rounds => exact Or.inl ⟨_, h⟩
    | select nfds rd wr timeoutMs rounds => exact Or.inl ⟨_, h⟩
    | read env interactive fd len => cases hc
    | readv interactive fd v => cases hc
    | recv env fd len flags => cases hc

/-- Enquiries, one after another, keep both accounts. -/
theorem sound_enquiries {s t : Inputs} (hs : Sound s) {asked : List Asked}
    (h : run enquire s asked = some t) : Sound t := by
  have hreach : Reachable enquire s t := ⟨asked, h⟩
  exact hreach.invariant hs fun _ _ _ hu hv => hu.moved (moved_enquire hv)

theorem whole_enquiries {s t : Inputs} (hs : Whole s) {asked : List Asked}
    (h : run enquire s asked = some t) : Whole t := by
  have hreach : Reachable enquire s t := ⟨asked, h⟩
  exact hreach.invariant hs fun _ _ _ hu hv => hu.moved not_false (moved_enquire hv)

theorem sound_step {s t : Inputs} (hs : Sound s) {c : InputCall} (h : s.step c = some t) :
    Sound t := by
  rcases moved_step hs.one h with ⟨asked, ha⟩ | hm
  · exact sound_enquiries hs ha
  · exact hs.moved hm

theorem whole_step {s t : Inputs} (hs : Sound s) (hw : Whole s) {c : InputCall}
    (hk : s.KeepsEnds c) (h : s.step c = some t) : Whole t := by
  rcases moved_step hs.one h with ⟨asked, ha⟩ | hm
  · exact whole_enquiries hw ha
  · exact hw.moved (not_not.mpr hk) hm

theorem sound_start {w : PortState} (hw : NothingHeld w) : Sound (start w) where
  bytes := fun d => by simp [start, Desc.heldByte, (hw.1 d).1]
  messages := fun slot => ⟨[], by simp [start, Sock.heldMessage, hw.2 slot], .nil⟩
  one := fun d hboth => by simp [start, (hw.1 d).1] at hboth

theorem whole_start {w : PortState} (hw : NothingHeld w) : Whole (start w) := by
  intro d _
  rw [show (start w).port.desc d = w.desc d from rfl, heldItems_of_nothing (hw.1 d).1 (hw.1 d).2]
  rfl

/-- Enquiries leave the table that the call leaves. -/
theorem port_enquiries {s t : Inputs} {asked : List Asked} (h : run enquire s asked = some t) :
    t.port = s.port.asking asked := by
  refine asking_of_run Inputs.port (fun s a t ht => ?_) h
  unfold enquire at ht
  simp only [Option.ite_none_right_eq_some] at ht
  obtain ⟨-, ht⟩ := ht
  cases hslot : s.port.sockOf a.d <;> simp only [hslot, Option.some.injEq] at ht <;>
    rw [← ht] <;> rfl

/-- **A `poll` of the account is a `poll`**, and so is a `select`. -/
theorem port_poll {s t : Inputs} {fds : Option (List PollFd)} {timeoutMs : Int}
    {rounds : List (ℕ → IoEnv)} (h : s.step (.poll fds timeoutMs rounds) = some t) :
    t.port = (s.port.okmPoll fds timeoutMs rounds).port := by
  rw [okmPoll_port]
  exact port_enquiries h

theorem port_select {s t : Inputs} {nfds : Int} {rd wr : Option (ℕ → Bool)} {timeoutMs : Int}
    {rounds : List (ℕ → IoEnv)} (h : s.step (.select nfds rd wr timeoutMs rounds) = some t) :
    t.port = (s.port.okmSelect nfds rd wr timeoutMs rounds).port := by
  rw [okmSelect_port]
  exact port_enquiries h

theorem sound_of_reachable {w : PortState} (hw : NothingHeld w) {s : Inputs}
    (h : Reachable step (start w) s) : Sound s :=
  h.invariant (sound_start hw) fun _ _ _ hu hv => sound_step hu hv

/-- **A readiness enquiry conserves input**: in every run the bytes that were given and the byte
that is held are those that were taken, in order, and every message was given once or is held. -/
theorem conserved_of_reachable {w : PortState} (hw : NothingHeld w) {s : Inputs}
    (h : Reachable step (start w) s) : Conserved s :=
  (sound_of_reachable hw h).toConserved

/-- **No end of input is lost** in a run of calls that lose none. -/
theorem whole_while_kept {w : PortState} (hw : NothingHeld w) {s : Inputs}
    (h : Reachable (restrict step KeepsEnds) (start w) s) : Whole s := by
  have hboth : Sound s ∧ Whole s := by
    refine h.invariant (I := fun s => Sound s ∧ Whole s) ⟨sound_start hw, whole_start hw⟩ ?_
    rintro u c v ⟨hu, hu'⟩ hv
    obtain ⟨hk, hstep⟩ := restrict_eq_some.mp hv
    exact ⟨sound_step hu hstep, whole_step hu hu' hk hstep⟩
  exact hboth.2

/-- An environment where `bytes` have arrived at a stream, and a message of three bytes. -/
def arrived (bytes : List UInt8) : IoEnv :=
  { IoEnv.idle with
    timeoutRead := some fun _ => .ok bytes
    streamRead := .ok bytes
    timeoutRecvFrom := some fun _ => .ok ⟨[1, 2, 3], loopbackEnd⟩
    datagramOpen := .ok 90 }

/-- A table with a datagram socket that is open, which is descriptor 3. -/
def openTable : PortState :=
  ((SockCall.bind (some loopback) 16).run (arrived []) datagramTable 3).port

theorem nothingHeld_openTable : NothingHeld openTable := by
  unfold NothingHeld
  decide +kernel

/-- The description of the standard input. -/
def inputDesc : Fin okmMaxDesc := ⟨0, by decide⟩

/-- The slot of the socket. -/
def firstSock : Fin okmMaxSock := ⟨0, Nat.succ_pos _⟩

/-- The standard input and the socket are polled, and then read. -/
def polling : List InputCall :=
  [.poll (some [{ fd := 0, events := pollIn }, { fd := 3, events := pollIn }]) 0
      [fun _ => arrived [97, 98]],
    .read (arrived [98, 99]) true 0 8, .recv .idle 3 2 0]

theorem conserved_polling :
    ∃ s, Reachable step (start openTable) s ∧
      s.given inputDesc = [.byte 97, .byte 98, .byte 99] ∧
      s.receipts firstSock = [⟨[1, 2], some loopbackEnd, 2⟩] ∧ Conserved s := by
  have hrun : (run step (start openTable) polling).map
      (fun s => (s.given inputDesc, s.receipts firstSock)) =
      some ([.byte 97, .byte 98, .byte 99], [⟨[1, 2], some loopbackEnd, 2⟩]) := by
    decide +kernel
  obtain ⟨s, hs, hview⟩ := Option.map_eq_some_iff.mp hrun
  obtain ⟨hgiven, hreceipts⟩ := Prod.mk.inj hview
  have hreach : Reachable step (start openTable) s := ⟨polling, hs⟩
  exact ⟨s, hreach, hgiven, hreceipts, conserved_of_reachable nothingHeld_openTable hreach⟩

/-- The standard input is polled and read, and ends. -/
def endingAfter (len : ℕ) : List InputCall :=
  [.poll (some [{ fd := 0, events := pollIn }]) 0 [fun _ => arrived [97]],
    .read (arrived []) true 0 len]

theorem whole_polling :
    ∃ s, Reachable (restrict step KeepsEnds) (start openTable) s ∧
      s.given inputDesc = [.byte 97, .eof] ∧ Whole s := by
  let calls := endingAfter 1 ++ [.read (arrived []) true 0 8]
  have hrun : (run (restrict step KeepsEnds) (start openTable) calls).map
      (fun s => s.given inputDesc) = some [.byte 97, .eof] := by
    decide +kernel
  obtain ⟨s, hs, hgiven⟩ := Option.map_eq_some_iff.mp hrun
  have hreach : Reachable (restrict step KeepsEnds) (start openTable) s := ⟨calls, hs⟩
  exact ⟨s, hreach, hgiven, whole_while_kept nothingHeld_openTable hreach⟩

/-- **An end of input is lost**: the standard input is polled, which takes a byte, and then read
with room for more; the input ends, and the read gives the byte alone. -/
theorem end_lost :
    ∃ s, Reachable step (start openTable) s ∧ s.taken inputDesc = [.byte 97, .eof] ∧
      s.given inputDesc = [.byte 97] ∧ (s.port.desc inputDesc).heldItems = [] ∧ ¬ Whole s := by
  have hrun : (run step (start openTable) (endingAfter 2)).map
      (fun s => ((s.taken inputDesc, s.given inputDesc),
        (s.port.desc inputDesc).heldItems, (s.port.desc inputDesc).kind)) =
      some (([.byte 97, .eof], [.byte 97]), [], .stream) := by
    decide +kernel
  obtain ⟨s, hs, hview⟩ := Option.map_eq_some_iff.mp hrun
  obtain ⟨⟨htaken, hgiven⟩, hheld, hkind⟩ := by simpa only [Prod.mk.injEq] using hview
  refine ⟨s, ⟨endingAfter 2, hs⟩, htaken, hgiven, hheld, fun hwhole => ?_⟩
  have hall := hwhole inputDesc (by rw [hkind]; decide)
  rw [htaken, hgiven, hheld] at hall
  cases hall

end Inputs

end OpenkalMusl
