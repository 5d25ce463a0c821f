import OpenkalMusl.Descriptors.Settling
import OpenkalMusl.Names.Resolve

/-!
# Calls that make descriptors

`openat`, `pipe`, `pipe2`, `socket`, `accept` and `accept4`, from the checks of their arguments to
the value they return. Each obtains its handles with the lock free, takes its descriptors under the
lock, and gives back what it could not bind. What the environment answers during a call is a
parameter (`Env`). A word of flags is its bit pattern.

A call that fails ought to leave the descriptors as they were and to have released every handle it
obtained. Every call does, but for a pipe that finds one free descriptor: its first end stays bound.

## Main definitions

* `Env`: what the environment answers during one call
* `Call.run`: the call
* `Outcome.Clean`: a failure leaves no trace
* `Call.HalfBound`: the calls that leave one

## Main results

* `leads_call`: a call is a run of the table's steps
* `clean_iff`: a call is clean exactly when it is no pipe with one free descriptor left
* `pipe_not_clean`: a reachable table on which a pipe is not
-/

namespace OpenkalMusl

open Transition Occupancy

/-- What the environment answers during one call; a weak operation that is absent answers
`none`. -/
structure Env where
  /-- Whether `kal_fs_info` says the name itself is a link. -/
  isLink : Bool
  /-- `kal_fs_open`, and the stream of the file it opens. -/
  openFile : Except KalError Handle
  fileStream : Handle
  /-- `kal_fs_open_dir`. -/
  openDir : Except KalError Handle
  /-- `kal_alloc`. -/
  alloc : Option ℕ
  /-- Whether a wait can be bounded. -/
  canBound : Bool
  /-- `kal_process_channel`: the end that is read and the end that is written. -/
  channel : Option (Except KalError (Handle × Handle))
  haveNet : Bool
  haveDgram : Bool
  /-- `kal_timeout_accept` and `kal_net_accept`, and the stream of the connection. -/
  timeoutAccept : Option (Except KalError Handle)
  netAccept : Except KalError Handle
  connStream : Handle

/-- What a call leaves: the table, the value returned, and the handles it obtained. -/
structure Outcome where
  port : PortState
  result : Except Errno ℕ
  obtained : List Resource

section Sockets

def sockStream : ℕ := 1
def sockDgram : ℕ := 2
def sockCloexec : ℕ := 0o2000000
def sockNonblock : ℕ := 0o4000

/-- The open flags of a socket's creation flags. -/
def sockFlags (type : ℕ) : ℕ :=
  (if hasFlag type sockNonblock then oNonblock else 0) |||
    (if hasFlag type sockCloexec then oCloexec else 0)

end Sockets

inductive Call where
  | openat (dirfd : Int) (path : Option Text) (flags : ℕ)
  /-- `out` says whether there is a place for the two descriptors. -/
  | pipe (out : Bool)
  | pipe2 (out : Bool) (flags : ℕ)
  | socket (domain : Int) (type : ℕ) (protocol : Int)
  | accept (fd : Int)
  | accept4 (fd : Int) (flags : ℕ)
  deriving DecidableEq

namespace PortState

/-- What `okm_unlock` does to the table: what this context let go of is taken out and closed. -/
def leave (w : PortState) (me : Context) : PortState :=
  if w.settling = [] then w
  else
    let r := w.takeSettling me
    r.1.foldl (fun w p => w.closeOwned me p) r.2

def fail (w : PortState) (e : Errno) : Outcome := ⟨w, .error e, []⟩

/-- The end of `openat`: the lock is released, and what was obtained is closed where no descriptor
was to be had. -/
def finish (r : PortState × Except Errno (Fin okmMaxFd)) (me : Context) (got : Resource) :
    Outcome :=
  match r with
  | (w, .ok f) => ⟨w.leave me, .ok f.val, [got]⟩
  | (w, .error e) => ⟨(w.leave me).record (.returned me got), .error e, [got]⟩

/-- The lock is released where the call owes the environment nothing. -/
def finishPlain (r : PortState × Except Errno (Fin okmMaxFd)) (me : Context)
    (obtained : List Resource) : Outcome :=
  ⟨r.1.leave me, r.2.map Fin.val, obtained⟩

/-- The part of `openat` that has a directory. -/
def openatDir (w : PortState) (me : Context) (env : Env) (dirfd : Int) (path : Option Text)
    (flags : ℕ) : Outcome :=
  match env.openDir with
  | .error e => w.fail (okmErrno e)
  | .ok d =>
    let named := (w.okmAbsolute dirfd path okmMaxPath).toOption
    finish (w.bindDir me d flags named env.alloc) me (.dir d)

def doOpenat (w : PortState) (me : Context) (env : Env) (dirfd : Int) (path : Option Text)
    (flags : ℕ) : Outcome :=
  if w.okmNullName dirfd path then
    if hasFlag flags oDirectory then w.fail .enotdir
    else if flags &&& (oCreat ||| oExcl) = oCreat ||| oExcl then w.fail .eexist
    else finishPlain (w.bindNew me .null 0 0 0 flags) me []
  else match w.okmResolve dirfd path false with
    | .error e => w.fail e
    | .ok _ =>
      if hasFlag flags oNofollow && env.isLink then w.fail .eloop
      else if hasFlag flags oDirectory then w.openatDir me env dirfd path flags
      else match env.openFile with
        | .ok f => finish (w.bindNew me .file env.fileStream f 0 flags) me (.file f)
        -- a program that opens a directory without saying so gets one
        | .error .isDirectory => w.openatDir me env dirfd path flags
        | .error e => w.fail (okmErrno e)

/-- The two descriptors of a pipe whose ends have been obtained. -/
def pipeEnds (w : PortState) (me : Context) (mine theirs : Handle) (flags : ℕ) : Outcome :=
  let obtained := [Resource.channel mine, Resource.channel theirs]
  match w.okmFdAlloc 0 with
  | .error e =>
    ⟨((w.leave me).record (.returned me (.channel mine))).record (.returned me (.channel theirs)),
      .error e, obtained⟩
  | .ok rfd =>
    let w := (w.okmFdBind me rfd.val .channel mine 0 0 (oRdonly ||| (flags &&& oNonblock))).1
    match w.okmFdAlloc 0 with
    | .error e =>
      ⟨(w.leave me).record (.returned me (.channel theirs)), .error e, obtained⟩
    | .ok wfd =>
      let w := (w.okmFdBind me wfd.val .channel theirs 0 0 (oWronly ||| (flags &&& oNonblock))).1
      let w := if hasFlag flags oCloexec then
          ((w.okmFdCloexec rfd.val true).1.okmFdCloexec wfd.val true).1
        else w
      ⟨w.leave me, .ok 0, obtained⟩

def doPipe2 (w : PortState) (me : Context) (env : Env) (out : Bool) (flags : ℕ) : Outcome :=
  if !out then w.fail .efault
  else if otherFlags flags (oCloexec ||| oNonblock) ≠ 0 then w.fail .einval
  else if hasFlag flags oNonblock && !env.canBound then w.fail .enosys
  else match env.channel with
    | none => w.fail .enosys
    | some (.error e) => w.fail (okmErrno e)
    | some (.ok (mine, theirs)) => w.pipeEnds me mine theirs flags

def okmSockOpen (w : PortState) (me : Context) (env : Env) (domain : Int) (type : ℕ)
    (protocol : Int) : Outcome :=
  if domain ≠ afInet ∧ domain ≠ afInet6 then w.fail .eafnosupport
  else
    let base := otherFlags type (sockCloexec ||| sockNonblock)
    if base ≠ sockStream ∧ base ≠ sockDgram then w.fail .esocktnosupport
    else if base = sockStream ∧ env.haveNet = false then w.fail .eafnosupport
    else if base = sockDgram ∧ env.haveDgram = false then w.fail .eafnosupport
    else if hasFlag type sockNonblock && !env.canBound then w.fail .enosys
    else finishPlain (w.sockOpen me domain base protocol (oRdwr ||| sockFlags type)) me []

/-- The part of `accept` that has a connection. -/
def acceptConn (w : PortState) (me : Context) (env : Env) (conn : Handle) (flags : ℕ) : Outcome :=
  match w.adopt me conn env.connStream (sockFlags flags) with
  | (w, .error e) => finishPlain (w, .error e) me [.conn conn]
  | (w, .ok f) =>
    let w := if hasFlag flags sockCloexec then (w.okmFdCloexec f.val true).1 else w
    finishPlain (w, .ok f) me [.conn conn]

/-- The connection a readiness enquiry accepted is taken. -/
def takePending (w : PortState) (slot : Fin okmMaxSock) : PortState :=
  { w with sock := Function.update w.sock slot { w.sock slot with pendConn := false } }

def okmSockAccept (w : PortState) (me : Context) (env : Env) (fd : Int) (flags : ℕ) : Outcome :=
  match w.okmDescOf fd with
  | none => w.fail .ebadf
  | some d =>
    match (if (w.desc d).kind = .socket then (w.desc d).sock else none) with
    | none => w.fail .enotsock
    | some slot =>
      if (w.sock slot).state ≠ .listen then w.fail .einval
      else if otherFlags flags (sockCloexec ||| sockNonblock) ≠ 0 then w.fail .einval
      else if hasFlag flags sockNonblock && !env.canBound then w.fail .enosys
      else if (w.sock slot).pendConn then
        -- a readiness enquiry already accepted one
        (w.takePending slot).acceptConn me env (w.sock slot).pend flags
      else if hasFlag (w.desc d).flags oNonblock then
        match env.timeoutAccept with
        | none => w.fail .enosys
        | some (.error e) => w.fail (okmErrno e)
        | some (.ok c) => w.acceptConn me env c flags
      else match env.netAccept with
        | .error e => w.fail (okmErrno e)
        | .ok c => w.acceptConn me env c flags

end PortState

open PortState

/-- A call, on a table whose lock is free. -/
def Call.run (me : Context) (env : Env) (w : PortState) : Call → Outcome
  | .openat dirfd path flags => w.doOpenat me env dirfd path flags
  -- the older call takes no flags
  | .pipe out => w.doPipe2 me env out 0
  | .pipe2 out flags => w.doPipe2 me env out flags
  | .socket domain type protocol => w.okmSockOpen me env domain type protocol
  | .accept fd => w.okmSockAccept me env fd 0
  | .accept4 fd flags => w.okmSockAccept me env fd flags

/-! ## A call is a run of the table's steps -/

theorem PortState.leave_of_settled {w : PortState} (h : w.settling = []) (me : Context) :
    w.leave me = w := by
  rw [leave, if_pos h]

namespace System

variable {s : System} {c : Context} {w : PortState}

/-- Steps of the table lead to `w`, and every context is where it was, with the lock free. -/
def Leads (s : System) (w : PortState) : Prop :=
  ∃ t, Reachable step s t ∧ t.port = w ∧ t.holder = none ∧ t.phase = s.phase

theorem leads_refl (hfree : s.holder = none) : s.Leads s.port :=
  ⟨s, Reachable.refl step s, rfl, hfree, rfl⟩

/-- What a call obtained and could not bind is given back. -/
theorem Leads.giveBack (h : s.Leads w) (c : Context) (r : Resource) :
    s.Leads (w.record (.returned c r)) := by
  obtain ⟨t, ht, rfl, hfree, hphase⟩ := h
  exact ⟨_, ht.tail (.giveBack c r) rfl, rfl, hfree, hphase⟩

/-- The descriptions taken out are closed one after another, and the call returns. -/
theorem exists_closed (mine : List Desc) (hc : s.phase c = .closing mine) :
    ∃ t, Reachable step s t ∧ t.port = mine.foldl (fun w p => w.closeOwned c p) s.port ∧
      t.holder = s.holder ∧ t.phase = Function.update s.phase c .idle := by
  induction mine generalizing s with
  | nil =>
    refine ⟨s.setPhase c .idle, (Reachable.refl step s).tail (.ret c) ?_, rfl, rfl, rfl⟩
    simp only [step]
    rw [if_pos hc]
  | cons p mine ih =>
    obtain ⟨t, ⟨ls, hrun⟩, hport, hholder, hphase⟩ :=
      ih (s := ({ s with port := s.port.closeOwned c p }).setPhase c (.closing mine))
        (Function.update_self ..)
    refine ⟨t, ⟨.close c :: ls, run_cons.mpr ⟨_, ?_, hrun⟩⟩, hport, hholder, ?_⟩
    · simp only [step, hc]
    · rw [hphase]
      exact Function.update_idem ..

/-- **`okm_unlock`** of the context that holds the lock. -/
theorem exists_leave (hc : s.phase c = .holding) :
    ∃ t, Reachable step s t ∧ t.port = s.port.leave c ∧ t.holder = none ∧
      t.phase = Function.update s.phase c .idle := by
  have hunlock : Reachable step s (s.okmUnlock c) := by
    refine (Reachable.refl step s).tail (.unlock c) ?_
    simp only [step]
    rw [if_pos hc]
  by_cases hnil : s.port.settling = []
  · refine ⟨s.okmUnlock c, hunlock, ?_, ?_, ?_⟩ <;> rw [okmUnlock, if_pos hnil]
    · rw [PortState.leave_of_settled hnil]
      rfl
    · rfl
    · rfl
  · -- what was let go is taken out, and closed with the lock free again
    have heq : s.okmUnlock c =
        ({ s with port := (s.port.takeSettling c).2, holder := none }).setPhase c
          (.closing (s.port.takeSettling c).1) := by
      rw [okmUnlock, if_neg hnil]
    rw [heq] at hunlock
    obtain ⟨t, ht, hport, hholder, hphase⟩ := exists_closed (s.port.takeSettling c).1
      (s := ({ s with port := (s.port.takeSettling c).2, holder := none }).setPhase c
        (.closing (s.port.takeSettling c).1)) (c := c) (Function.update_self ..)
    refine ⟨t, hunlock.trans ht, ?_, hholder, ?_⟩
    · rw [hport, PortState.leave, if_neg hnil]
      rfl
    · rw [hphase]
      exact Function.update_idem ..

/-- Each operation is answered in the table the ones before it left. -/
def AllAnswered (c : Context) : PortState → List Op → Prop
  | _, [] => True
  | w, op :: ops => op.Answered w ∧ AllAnswered c (op.apply c w) ops

/-- The context that holds the lock performs its operations one after another. -/
theorem exists_ops (hc : s.phase c = .holding) {ops : List Op} (h : AllAnswered c s.port ops) :
    ∃ t, Reachable step s t ∧ t.port = ops.foldl (fun w op => op.apply c w) s.port ∧
      t.holder = s.holder ∧ t.phase = s.phase := by
  induction ops generalizing s with
  | nil => exact ⟨s, Reachable.refl step s, rfl, rfl, rfl⟩
  | cons op ops ih =>
    obtain ⟨t, ⟨ls, hrun⟩, hport, hholder, hphase⟩ :=
      ih (s := { s with port := op.apply c s.port }) hc h.2
    refine ⟨t, ⟨.op c op :: ls, run_cons.mpr ⟨_, ?_, hrun⟩⟩, hport, hholder, hphase⟩
    simp only [step]
    rw [if_pos ⟨hc, h.1⟩]

theorem apply_channel {w : PortState} {f : Fin okmMaxFd} (hf : w.okmFdAlloc 0 = .ok f)
    (c : Context) (stream : Handle) (flags : ℕ) :
    (Op.channel stream flags).apply c w =
      (w.okmFdBind c f.val .channel stream 0 0 flags).1 := by
  unfold Op.apply PortState.bindNew
  rw [hf]

section Holding

variable {env : Env} (hfree : s.holder = none) (hidle : s.phase c = .idle)

include hfree hidle

/-- **A holding of the lock**: a context that finds it free takes it, performs its operations and
releases it. -/
theorem leads_ops (ops : List Op) (h : AllAnswered c s.port ops) :
    s.Leads ((ops.foldl (fun w op => op.apply c w) s.port).leave c) := by
  have hlock : Reachable step s (({ s with holder := some c }).setPhase c .holding) := by
    refine (Reachable.refl step s).tail (.lock c) ?_
    simp only [step]
    rw [if_pos ⟨hfree, hidle⟩]
  obtain ⟨t, ht, hport, -, hphase⟩ := exists_ops
    (s := ({ s with holder := some c }).setPhase c .holding) (c := c) (Function.update_self ..) h
  have htc : t.phase c = .holding := by
    rw [hphase]
    exact Function.update_self ..
  obtain ⟨u, hu, huport, hufree, huphase⟩ := exists_leave htc
  refine ⟨u, (hlock.trans ht).trans hu, ?_, hufree, ?_⟩
  · rw [huport, hport]
    rfl
  · rw [huphase, hphase]
    -- the context is outside any call again, as it was
    simp only [setPhase, Function.update_idem]
    exact Function.update_eq_self_iff.mpr hidle.symm

theorem leads_finish (op : Op) (hop : op.Answered s.port)
    {r : PortState × Except Errno (Fin okmMaxFd)} (hr : op.apply c s.port = r.1) (got : Resource) :
    s.Leads (PortState.finish r c got).port := by
  have hleads := leads_ops hfree hidle [op] ⟨hop, trivial⟩
  rw [List.foldl_cons, List.foldl_nil, hr] at hleads
  obtain ⟨w, e | f⟩ := r
  · exact hleads.giveBack c got
  · exact hleads

theorem leads_finishPlain (op : Op) (hop : op.Answered s.port)
    {r : PortState × Except Errno (Fin okmMaxFd)} (hr : op.apply c s.port = r.1)
    (obtained : List Resource) :
    s.Leads (PortState.finishPlain r c obtained).port := by
  have hleads := leads_ops hfree hidle [op] ⟨hop, trivial⟩
  rwa [List.foldl_cons, List.foldl_nil, hr] at hleads

theorem leads_doOpenat (halloc : ∀ a ∈ env.alloc, s.port.okmFromSnapshot a = false) (dirfd : Int)
    (path : Option Text) (flags : ℕ) : s.Leads (s.port.doOpenat c env dirfd path flags).port := by
  have hdir : s.Leads (s.port.openatDir c env dirfd path flags).port := by
    unfold PortState.openatDir
    split
    · exact leads_refl hfree
    · rename_i d _
      exact leads_finish hfree hidle
        (.dir d flags (s.port.okmAbsolute dirfd path okmMaxPath).toOption env.alloc)
        halloc rfl _
  unfold PortState.doOpenat
  split
  · split_ifs
    · exact leads_refl hfree
    · exact leads_refl hfree
    · exact leads_finishPlain hfree hidle (.null flags) trivial rfl _
  · cases s.port.okmResolve dirfd path false with
    | error e => exact leads_refl hfree
    | ok at_ =>
      simp only
      split_ifs
      · exact leads_refl hfree
      · exact hdir
      · split
        · rename_i f _
          exact leads_finish hfree hidle (.file env.fileStream f flags) trivial rfl _
        · exact hdir
        · exact leads_refl hfree

theorem leads_pipeEnds (mine theirs : Handle) (flags : ℕ) :
    s.Leads (s.port.pipeEnds c mine theirs flags).port := by
  unfold PortState.pipeEnds
  cases hr : s.port.okmFdAlloc 0 with
  | error e =>
    have hleads := leads_ops hfree hidle [] trivial
    exact (hleads.giveBack c (.channel mine)).giveBack c (.channel theirs)
  | ok rfd =>
    simp only
    rw [← apply_channel hr]
    cases hw : ((Op.channel mine (oRdonly ||| (flags &&& oNonblock))).apply c
        s.port).okmFdAlloc 0 with
    | error e =>
      -- one end is bound and stays so; the other is given back
      have hleads := leads_ops hfree hidle
        [.channel mine (oRdonly ||| (flags &&& oNonblock))] ⟨trivial, trivial⟩
      exact hleads.giveBack c (.channel theirs)
    | ok wfd =>
      simp only
      rw [← apply_channel hw]
      split_ifs
      · exact leads_ops hfree hidle
          [.channel mine (oRdonly ||| (flags &&& oNonblock)),
            .channel theirs (oWronly ||| (flags &&& oNonblock)), .cloexec rfd.val true,
            .cloexec wfd.val true] ⟨trivial, trivial, trivial, trivial, trivial⟩
      · exact leads_ops hfree hidle
          [.channel mine (oRdonly ||| (flags &&& oNonblock)),
            .channel theirs (oWronly ||| (flags &&& oNonblock))] ⟨trivial, trivial, trivial⟩

theorem leads_doPipe2 (out : Bool) (flags : ℕ) :
    s.Leads (s.port.doPipe2 c env out flags).port := by
  unfold PortState.doPipe2
  split_ifs
  · exact leads_refl hfree
  · exact leads_refl hfree
  · exact leads_refl hfree
  · split
    · exact leads_refl hfree
    · exact leads_refl hfree
    · exact leads_pipeEnds hfree hidle _ _ _

theorem leads_okmSockOpen (domain : Int) (type : ℕ) (protocol : Int) :
    s.Leads (s.port.okmSockOpen c env domain type protocol).port := by
  unfold PortState.okmSockOpen
  simp only
  split_ifs
  · exact leads_refl hfree
  · exact leads_refl hfree
  · exact leads_refl hfree
  · exact leads_refl hfree
  · exact leads_refl hfree
  · exact leads_finishPlain hfree hidle
      (.socket domain (otherFlags type (sockCloexec ||| sockNonblock)) protocol
        (oRdwr ||| sockFlags type)) trivial rfl _

theorem leads_acceptConn (conn : Handle) (flags : ℕ) :
    s.Leads (s.port.acceptConn c env conn flags).port := by
  unfold PortState.acceptConn
  have happly : (Op.adopt conn env.connStream (sockFlags flags)).apply c s.port =
      (s.port.adopt c conn env.connStream (sockFlags flags)).1 := rfl
  generalize s.port.adopt c conn env.connStream (sockFlags flags) = r at happly ⊢
  obtain ⟨w, e | f⟩ := r
  · exact leads_finishPlain hfree hidle
      (.adopt conn env.connStream (sockFlags flags)) trivial happly _
  · simp only
    split_ifs
    · have hleads := leads_ops hfree hidle
        [.adopt conn env.connStream (sockFlags flags), .cloexec f.val true]
        ⟨trivial, trivial, trivial⟩
      rw [List.foldl_cons, happly, List.foldl_cons, List.foldl_nil, Op.apply] at hleads
      simp only [PortState.finishPlain] at hleads ⊢
      exact hleads
    · exact leads_finishPlain hfree hidle
        (.adopt conn env.connStream (sockFlags flags)) trivial happly _

/-- A connection accepted by a readiness enquiry is taken from its slot first. -/
theorem leads_takePending {slot : Fin okmMaxSock} (hslot : (s.port.sock slot).state ≠ .free)
    (conn : Handle) (flags : ℕ) :
    s.Leads ((s.port.takePending slot).acceptConn c env conn flags).port := by
  have htake : Reachable step s { s with port := s.port.takePending slot } := by
    refine (Reachable.refl step s).tail
      (.sockCall slot { s.port.sock slot with pendConn := false }) ?_
    simp only [step]
    rw [if_pos ⟨hslot, hslot⟩]
    rfl
  obtain ⟨t, ht, hport, htfree, hphase⟩ :=
    leads_acceptConn (s := { s with port := s.port.takePending slot }) hfree hidle conn flags
  exact ⟨t, htake.trans ht, hport, htfree, hphase⟩

theorem leads_okmSockAccept (fd : Int) (flags : ℕ) :
    s.Leads (s.port.okmSockAccept c env fd flags).port := by
  unfold PortState.okmSockAccept
  cases s.port.okmDescOf fd with
  | none => exact leads_refl hfree
  | some d =>
    simp only
    split
    · exact leads_refl hfree
    · rename_i slot _
      split_ifs with hlisten
      · exact leads_refl hfree
      · exact leads_refl hfree
      · exact leads_refl hfree
      · refine leads_takePending hfree hidle ?_ _ _
        rw [not_not.mp hlisten]
        nofun
      · split
        · exact leads_refl hfree
        · exact leads_refl hfree
        · exact leads_acceptConn hfree hidle _ _
      · split
        · exact leads_refl hfree
        · exact leads_acceptConn hfree hidle _ _

/-- **A call is a run of the table's steps**, of a context that finds the lock free; afterwards it
is free, and every context is where it was. -/
theorem leads_call (halloc : ∀ a ∈ env.alloc, s.port.okmFromSnapshot a = false) (call : Call) :
    s.Leads (call.run c env s.port).port := by
  cases call with
  | openat dirfd path flags => exact leads_doOpenat hfree hidle halloc dirfd path flags
  | pipe out => exact leads_doPipe2 hfree hidle out 0
  | pipe2 out flags => exact leads_doPipe2 hfree hidle out flags
  | socket domain type protocol => exact leads_okmSockOpen hfree hidle domain type protocol
  | accept fd => exact leads_okmSockAccept hfree hidle fd 0
  | accept4 fd flags => exact leads_okmSockAccept hfree hidle fd flags

end Holding

/-- What a call leaves of a reachable table: its counts are exact, what was bound is held or was let
go, and nothing waits to be closed. -/
theorem call_keeps {env : Env} {me : Context} {start : Start}
    (h : Reachable step (System.start me start) s) (hfree : s.holder = none)
    (hidle : s.phase c = .idle) (halloc : ∀ a ∈ env.alloc, s.port.okmFromSnapshot a = false)
    (call : Call) :
    (call.run c env s.port).port.Exact ∧ (call.run c env s.port).port.Held ∧
      (call.run c env s.port).port.settling = [] := by
  obtain ⟨t, ht, hport, htfree, -⟩ := leads_call hfree hidle halloc call
  have hreach := h.trans ht
  rw [← hport]
  exact ⟨exact_of_reachable hreach, held_of_reachable hreach,
    (settlingInv_of_reachable hreach).settling_eq_nil htfree⟩

end System

/-! ## A failure that leaves no trace -/

/-- The resource an event gives back to the environment. -/
def Event.released : Event → Option Resource
  | .closed _ r | .returned _ r => some r
  | _ => none

/-- Where the call failed, every descriptor is what it was and names what it named, and every
handle the call obtained has been released exactly once. -/
def Outcome.Clean (w : PortState) (o : Outcome) : Prop :=
  ∀ e, o.result = .error e →
    o.port.fd = w.fd ∧ (∀ f d, (w.fd f).desc = some d → o.port.desc d = w.desc d) ∧
      ∃ es, o.port.log = w.log ++ es ∧ (es.filterMap Event.released).Perm o.obtained

namespace PortState

theorem clean_fail (w : PortState) (e : Errno) : (w.fail e).Clean w := by
  intro e' _
  exact ⟨rfl, fun _ _ _ => rfl, [], by simp [fail], by simp [fail]⟩

/-- A bind that fails changes nothing. -/
theorem okmFdBind_error {w : PortState} {me : Context} {fd : Int} {kind : Kind}
    {stream file dir : Handle} {flags : ℕ} {e : Errno}
    (h : (w.okmFdBind me fd kind stream file dir flags).2 = .error e) :
    (w.okmFdBind me fd kind stream file dir flags).1 = w := by
  unfold okmFdBind at h ⊢
  cases hf : fdIndex fd with
  | none => rfl
  | some f =>
    simp only [hf] at h ⊢
    cases hd : w.descAlloc with
    | none => rfl
    | some d => simp [hd] at h

theorem bindNew_error {w : PortState} {me : Context} {kind : Kind} {stream file dir : Handle}
    {flags : ℕ} {e : Errno} (h : (w.bindNew me kind stream file dir flags).2 = .error e) :
    (w.bindNew me kind stream file dir flags).1 = w := by
  unfold bindNew at h ⊢
  cases hf : w.okmFdAlloc 0 with
  | error e' => rfl
  | ok f =>
    rw [hf] at h
    exact okmFdBind_error h

theorem bindDir_error {w : PortState} {me : Context} {dir : Handle} {flags : ℕ}
    {name : Option Text} {alloc : Option ℕ} {e : Errno}
    (h : (w.bindDir me dir flags name alloc).2 = .error e) :
    (w.bindDir me dir flags name alloc).1 = w := by
  have hbind : (w.bindNew me .dir 0 0 dir flags).2 = .error e →
      (w.bindNew me .dir 0 0 dir flags).1 = w := bindNew_error
  unfold bindDir at h ⊢
  generalize w.bindNew me .dir 0 0 dir flags = r at h hbind ⊢
  obtain ⟨w', e' | f⟩ := r
  · obtain rfl : e' = e := by simpa using h
    exact hbind rfl
  · -- bound: a name kept or not, the call succeeded
    cases name <;> simp at h

theorem bindSock_error {w : PortState} {me : Context} {stream : Handle} {flags : ℕ}
    {fill : Sock → Sock} {e : Errno} (h : (w.bindSock me stream flags fill).2 = .error e) :
    (w.bindSock me stream flags fill).1 = w := by
  unfold bindSock at h ⊢
  cases hf : w.okmFdAlloc 0 with
  | error e' => rfl
  | ok f =>
    simp only [hf] at h ⊢
    cases hs : w.slotAlloc with
    | none => rfl
    | some r => simp [hs] at h

theorem clean_finish {w : PortState} {r : PortState × Except Errno (Fin okmMaxFd)}
    (hr : ∀ e, r.2 = .error e → r.1 = w) (hw : w.settling = []) (me : Context) (got : Resource) :
    (finish r me got).Clean w := by
  obtain ⟨v, e | f⟩ := r
  · obtain rfl : v = w := hr e rfl
    -- the table is as it was, and the one handle is given back after the lock
    intro e' _
    simp only [finish, leave_of_settled hw]
    exact ⟨rfl, fun _ _ _ => rfl, [.returned me got], rfl, by simp [Event.released]⟩
  · intro e' he
    cases he

theorem clean_finishPlain {w : PortState} {r : PortState × Except Errno (Fin okmMaxFd)}
    (hr : ∀ e, r.2 = .error e → r.1 = w) (hw : w.settling = []) (me : Context) :
    (finishPlain r me []).Clean w := by
  obtain ⟨v, e | f⟩ := r
  · obtain rfl : v = w := hr e rfl
    intro e' _
    have hport : (finishPlain (v, .error e) me []).port = v := leave_of_settled hw me
    rw [hport]
    exact ⟨rfl, fun _ _ _ => rfl, [], by simp, by simp [finishPlain]⟩
  · intro e' he
    cases he

theorem clean_doOpenat {w : PortState} (hw : w.settling = []) (me : Context) (env : Env)
    (dirfd : Int) (path : Option Text) (flags : ℕ) :
    (w.doOpenat me env dirfd path flags).Clean w := by
  have hdir : (w.openatDir me env dirfd path flags).Clean w := by
    unfold openatDir
    split
    · exact clean_fail _ _
    · exact clean_finish (fun _ => bindDir_error) hw _ _
  unfold doOpenat
  split
  · -- the null device, which obtains nothing
    split_ifs
    · exact clean_fail _ _
    · exact clean_fail _ _
    · exact clean_finishPlain (fun _ => bindNew_error) hw _
  · cases w.okmResolve dirfd path false with
    | error e => exact clean_fail _ _
    | ok at_ =>
      simp only
      split_ifs
      · exact clean_fail _ _
      · exact hdir
      · split
        · exact clean_finish (fun _ => bindNew_error) hw _ _
        · -- not a file after all: it is opened as a directory
          exact hdir
        · exact clean_fail _ _

theorem clean_okmSockOpen {w : PortState} (hw : w.settling = []) (me : Context) (env : Env)
    (domain : Int) (type : ℕ) (protocol : Int) :
    (w.okmSockOpen me env domain type protocol).Clean w := by
  unfold okmSockOpen
  simp only
  split_ifs
  · exact clean_fail _ _
  · exact clean_fail _ _
  · exact clean_fail _ _
  · exact clean_fail _ _
  · exact clean_fail _ _
  · exact clean_finishPlain (fun _ => bindSock_error) hw _

/-- A connection that cannot be placed is closed, once. -/
theorem clean_acceptConn {w v : PortState} (hfd : v.fd = w.fd) (hdesc : v.desc = w.desc)
    (hlog : v.log = w.log) (hv : v.settling = []) (me : Context) (env : Env) (conn : Handle)
    (flags : ℕ) : (v.acceptConn me env conn flags).Clean w := by
  unfold acceptConn adopt
  have herr : ∀ e, (v.bindSock me env.connStream (oRdwr ||| sockFlags flags) fun s =>
      { s with state := .conn, conn := conn, type := 1 }).2 = .error e →
      (v.bindSock me env.connStream (oRdwr ||| sockFlags flags) fun s =>
        { s with state := .conn, conn := conn, type := 1 }).1 = v := fun _ => bindSock_error
  generalize (v.bindSock me env.connStream (oRdwr ||| sockFlags flags) fun s =>
    { s with state := .conn, conn := conn, type := 1 }) = r at herr ⊢
  obtain ⟨x, e | f⟩ := r
  · obtain rfl : x = v := herr e rfl
    intro e' _
    have hs : (x.record (.returned me (.conn conn))).settling = [] := hv
    simp only [finishPlain, leave_of_settled hs]
    -- refused under the lock, before anything was written
    refine ⟨hfd, fun _ d _ => ?_, [.returned me (.conn conn)], ?_, by simp [Event.released]⟩
    · rw [record_desc, hdesc]
    · rw [record_log, hlog]
  · intro e' he
    cases he

theorem clean_okmSockAccept {w : PortState} (hw : w.settling = []) (me : Context) (env : Env)
    (fd : Int) (flags : ℕ) : (w.okmSockAccept me env fd flags).Clean w := by
  have hconn : ∀ c, (w.acceptConn me env c flags).Clean w := fun c =>
    clean_acceptConn rfl rfl rfl hw me env c flags
  -- A pending connection is taken from its slot, which no descriptor reads.
  have hpend : ∀ slot c, ((w.takePending slot).acceptConn me env c flags).Clean w := by
    intro slot c
    have hfd : (w.takePending slot).fd = w.fd := rfl
    have hdesc : (w.takePending slot).desc = w.desc := rfl
    have hlog : (w.takePending slot).log = w.log := rfl
    have hs : (w.takePending slot).settling = [] := hw
    exact clean_acceptConn hfd hdesc hlog hs me env c flags
  unfold okmSockAccept
  cases w.okmDescOf fd with
  | none => exact clean_fail _ _
  | some d =>
    simp only
    split
    · exact clean_fail _ _
    · split_ifs
      · exact clean_fail _ _
      · exact clean_fail _ _
      · exact clean_fail _ _
      · exact hpend _ _
      · split
        · exact clean_fail _ _
        · exact clean_fail _ _
        · exact hconn _
      · split
        · exact clean_fail _ _
        · exact hconn _

/-! ## Pipes -/

/-- The lowest free descriptor is found exactly where there is one. -/
theorem okmFdAlloc_eq_error_iff (w : PortState) :
    w.okmFdAlloc 0 = .error .emfile ↔ vacant w.named = 0 := by
  -- The scan passes over every descriptor exactly when all are in use.
  have hnone : ((List.finRange okmMaxFd).find? fun f =>
      (0 : Int) ≤ f.val ∧ (w.fd f).desc = none) = none ↔ vacant w.named = 0 := by
    rw [List.find?_eq_none, vacant, Finset.card_eq_zero, Finset.filter_eq_empty_iff]
    constructor
    · intro h f _ hf
      refine h f (List.mem_finRange f) ?_
      have hdesc : (w.fd f).desc = none := hf
      simp [hdesc]
    · intro h f _ hf
      simp only [decide_eq_true_eq] at hf
      exact h (Finset.mem_univ f) hf.2
  rw [← hnone]
  unfold okmFdAlloc
  simp only [lt_irrefl, if_false]
  split
  · rename_i f hf
    rw [hf]
    simp
  · rename_i hf
    rw [hf]
    simp

theorem okmFdAlloc_cases (w : PortState) :
    (w.okmFdAlloc 0 = .error .emfile ∧ vacant w.named = 0) ∨
      ∃ f, w.okmFdAlloc 0 = .ok f ∧ (w.fd f).desc = none ∧ 0 < vacant w.named := by
  by_cases hv : vacant w.named = 0
  · exact Or.inl ⟨(okmFdAlloc_eq_error_iff w).mpr hv, hv⟩
  · cases hf : w.okmFdAlloc 0 with
    | ok f => exact Or.inr ⟨f, rfl, okmFdAlloc_eq_ok hf, Nat.pos_of_ne_zero hv⟩
    | error e =>
      exfalso
      refine hv ((okmFdAlloc_eq_error_iff w).mp ?_)
      rw [hf]
      unfold okmFdAlloc at hf
      simp only at hf
      split at hf <;> cases hf
      rfl

/-- One descriptor fewer is free after a bind upon a free one. -/
theorem vacant_okmFdBind {w : PortState} (h : w.Exact) {f : Fin okmMaxFd}
    (hf : (w.fd f).desc = none) (me : Context) (kind : Kind) (stream file dir : Handle)
    (flags : ℕ) :
    vacant (w.okmFdBind me f.val kind stream file dir flags).1.named + 1 = vacant w.named := by
  obtain ⟨d, hbind, -⟩ := h.okmFdBind_ok hf me kind stream file dir flags
  have hupd := vacant_update w.named f (some d)
  have hnamed : w.named f = none := hf
  rw [hbind, named_setFd]
  have hsame : (w.bindDesc d ((w.desc d).bind kind stream file dir flags)).named = w.named := rfl
  rw [hsame]
  simpa [hnamed] using hupd

/-- **A pipe's ends**: with no descriptor free both are given back, with two both are bound, and
with one the first stays bound although the call fails. -/
theorem clean_pipeEnds_iff {w : PortState} (h : w.Exact) (hw : w.settling = []) (me : Context)
    (mine theirs : Handle) (flags : ℕ) :
    (w.pipeEnds me mine theirs flags).Clean w ↔ vacant w.named ≠ 1 := by
  unfold pipeEnds
  rcases okmFdAlloc_cases w with ⟨hnone, hv⟩ | ⟨rfd, hrfd, hfree, hpos⟩
  · -- no descriptor for the first end: both are given back
    simp only [hnone, hv, leave_of_settled hw]
    refine ⟨fun _ => by simp, fun _ e _ => ?_⟩
    refine ⟨rfl, fun _ _ _ => rfl,
      [.returned me (.channel mine), .returned me (.channel theirs)], by simp, ?_⟩
    simp [Event.released]
  · simp only [hrfd]
    -- the first end takes the free one, and one less is free
    have hvac := vacant_okmFdBind h hfree me .channel mine 0 0 (oRdonly ||| (flags &&& oNonblock))
    have hset := (okmFdBind_of_free (fdIndex_val rfd) hfree me .channel mine 0 0
      (oRdonly ||| (flags &&& oNonblock))).1
    obtain ⟨d, hbind, -⟩ :=
      h.okmFdBind_ok hfree me .channel mine 0 0 (oRdonly ||| (flags &&& oNonblock))
    have hbound : ((w.okmFdBind me rfd.val .channel mine 0 0
        (oRdonly ||| (flags &&& oNonblock))).1.fd rfd).desc = some d := by
      rw [hbind]
      simp [setFd]
    generalize (w.okmFdBind me rfd.val .channel mine 0 0
      (oRdonly ||| (flags &&& oNonblock))).1 = v at hvac hset hbound ⊢
    rcases okmFdAlloc_cases v with ⟨hnone, hv⟩ | ⟨wfd, hwfd, -, hv⟩
    · simp only [hnone]
      constructor
      · intro hclean
        -- the first end is still bound, to a descriptor that was free
        have hfd := (hclean .emfile rfl).1
        rw [record_fd, leave_of_settled (hset.trans hw)] at hfd
        rw [hfd, hfree] at hbound
        cases hbound
      · intro hne
        omega
    · simp only [hwfd]
      -- two were free: the call succeeds, and there is no failure to judge
      refine ⟨fun _ => by omega, fun _ e he => ?_⟩
      cases he

end PortState

/-- The pipe's arguments are accepted and its ends obtained. -/
def PipeObtained (env : Env) (out : Bool) (flags : ℕ) : Prop :=
  out = true ∧ otherFlags flags (oCloexec ||| oNonblock) = 0 ∧
    (hasFlag flags oNonblock = true → env.canBound = true) ∧
    ∃ mine theirs, env.channel = some (.ok (mine, theirs))

/-- The calls that fail with a trace: a pipe whose ends are obtained when one descriptor is
free. -/
def Call.HalfBound (env : Env) (w : PortState) : Call → Prop
  | .pipe out => PipeObtained env out 0 ∧ vacant w.named = 1
  | .pipe2 out flags => PipeObtained env out flags ∧ vacant w.named = 1
  | _ => False

theorem clean_doPipe2_iff {w : PortState} (h : w.Exact) (hw : w.settling = []) (me : Context)
    (env : Env) (out : Bool) (flags : ℕ) :
    (w.doPipe2 me env out flags).Clean w ↔
      ¬ (PipeObtained env out flags ∧ vacant w.named = 1) := by
  unfold doPipe2 PipeObtained
  split_ifs with h₁ h₂ h₃
  · -- refused before a channel is asked for
    have : out = false := by simpa using h₁
    simp [clean_fail, this]
  · simp [clean_fail, h₂]
  · have : hasFlag flags oNonblock = true ∧ env.canBound = false := by simpa using h₃
    simp [clean_fail, this]
  · have hout : out = true := by simpa using h₁
    have hflags : otherFlags flags (oCloexec ||| oNonblock) = 0 := not_not.mp h₂
    have hbound : hasFlag flags oNonblock = true → env.canBound = true := by
      intro hn
      by_contra hb
      exact h₃ (by simp [hn, hb])
    cases hch : env.channel with
    | none => simp [clean_fail]
    | some r =>
      rcases r with e | ⟨mine, theirs⟩
      · simp [clean_fail]
      · simp only [hout, hflags, true_and]
        rw [clean_pipeEnds_iff h hw]
        constructor
        · rintro hne ⟨-, hv⟩
          exact hne hv
        · intro hn hv
          exact hn ⟨⟨hbound, mine, theirs, rfl⟩, hv⟩

/-- **When a failed call changes nothing**: on every reachable table with the lock free, exactly
for the calls other than a pipe whose ends are obtained when one descriptor is free. -/
theorem clean_iff {me : Context} {start : Start} {s : System}
    (h : Reachable System.step (System.start me start) s) (hfree : s.holder = none) (c : Context)
    (env : Env) (call : Call) :
    (call.run c env s.port).Clean s.port ↔ ¬ call.HalfBound env s.port := by
  have hexact := System.exact_of_reachable h
  have hset := (System.settlingInv_of_reachable h).settling_eq_nil hfree
  cases call with
  | openat dirfd path flags =>
    exact iff_of_true (clean_doOpenat hset c env dirfd path flags) not_false
  | pipe out => exact clean_doPipe2_iff hexact hset c env out 0
  | pipe2 out flags => exact clean_doPipe2_iff hexact hset c env out flags
  | socket domain type protocol =>
    exact iff_of_true (clean_okmSockOpen hset c env domain type protocol) not_false
  | accept fd => exact iff_of_true (clean_okmSockAccept hset c env fd 0) not_false
  | accept4 fd flags => exact iff_of_true (clean_okmSockAccept hset c env fd flags) not_false

/-- An environment that grants what it is asked for, but memory. -/
def Env.granting : Env where
  isLink := false
  openFile := .ok 30
  fileStream := 31
  openDir := .ok 32
  alloc := none
  canBound := true
  channel := some (.ok (40, 41))
  haveNet := true
  haveDgram := true
  timeoutAccept := none
  netAccept := .ok 50
  connStream := 51

theorem clean_iff_start :
    ((Call.pipe true).run 1 .granting (System.start 1 .supplied).port).Clean
        (System.start 1 .supplied).port ↔
      ¬ (Call.pipe true).HalfBound .granting (System.start 1 .supplied).port :=
  clean_iff (Reachable.refl _ _) rfl 1 .granting (.pipe true)

/-! ## A table with one descriptor left -/

namespace PortState

theorem vacant_okmTableInit (me : Context) (start : Start) :
    vacant (okmTableInit me start).named + 3 = okmMaxFd := by
  let w₀ : PortState := { okmTableInitMemory start with stdStream := start.streams }
  have e₀ : w₀.Exact := exact_okmTableInitMemory start
  have hall : vacant w₀.named = okmMaxFd := by
    have : (Finset.univ.filter fun f => w₀.named f = none) = Finset.univ :=
      Finset.filter_true_of_mem fun f _ => rfl
    rw [vacant, this, Finset.card_univ, Fintype.card_fin]
  -- each of the three streams takes a descriptor that was free
  let f₀ : Fin okmMaxFd := ⟨0, by decide⟩
  let f₁ : Fin okmMaxFd := ⟨1, by decide⟩
  let f₂ : Fin okmMaxFd := ⟨2, by decide⟩
  have h₀ := okmFdBind_of_free (w := w₀) (fdIndex_val f₀) rfl me .stream (start.streams 0) 0 0
    oRdonly
  have v₀ := vacant_okmFdBind (w := w₀) e₀ (f := f₀) rfl me .stream (start.streams 0) 0 0 oRdonly
  have e₁ := exact_okmFdBind e₀ me f₀.val (show Kind.stream ≠ .free by decide) (start.streams 0) 0 0
    oRdonly
  have i₁ := congrArg FdSlot.desc (h₀.2 f₁ (by decide))
  have h₁ := okmFdBind_of_free (fdIndex_val f₁) i₁ me .stream (start.streams 1) 0 0 oWronly
  have v₁ := vacant_okmFdBind e₁ i₁ me .stream (start.streams 1) 0 0 oWronly
  have e₂ := exact_okmFdBind e₁ me f₁.val (show Kind.stream ≠ .free by decide) (start.streams 1) 0 0
    oWronly
  have i₂ := congrArg FdSlot.desc ((h₁.2 f₂ (by decide)).trans (h₀.2 f₂ (by decide)))
  have v₂ := vacant_okmFdBind e₂ i₂ me .stream (start.streams 2) 0 0 oWronly
  have hinit : (okmTableInit me start).named =
      ((okmTableInitMemory start).bindStreams me start.streams).named := by
    unfold okmTableInit okmTableInitStreams named
    simp only
    split
    · simp only
    · simp only
  have hstreams : ((okmTableInitMemory start).bindStreams me start.streams).named =
      (okmFdBind (okmFdBind (okmFdBind w₀ me f₀.val .stream (start.streams 0) 0 0 oRdonly).1
        me f₁.val .stream (start.streams 1) 0 0 oWronly).1
        me f₂.val .stream (start.streams 2) 0 0 oWronly).1.named := by
    unfold bindStreams
    simp only [f₀, f₁, f₂, Nat.cast_zero, Nat.cast_one, Nat.cast_ofNat, w₀]
  rw [hinit, hstreams]
  omega

end PortState

namespace System

/-- A context that holds the lock and binds the null device takes one descriptor after another. -/
theorem exists_run_null (n k : ℕ) {s : System} {c : Context} (hc : s.phase c = .holding)
    (hexact : s.port.Exact) (hset : s.port.settling = []) (hv : vacant s.port.named = n + k) :
    ∃ t, run step s (List.replicate n (.op c (.null 0))) = some t ∧ t.phase = s.phase ∧
      t.port.settling = [] ∧ vacant t.port.named = k := by
  induction n generalizing s with
  | zero => exact ⟨s, rfl, rfl, hset, by omega⟩
  | succ n ih =>
    rcases okmFdAlloc_cases s.port with ⟨-, h₀⟩ | ⟨f, hf, hfree, -⟩
    · omega
    · -- the next free descriptor is taken, and nothing was let go
      have hvac := vacant_okmFdBind hexact hfree c .null 0 0 0 0
      have hset' := (okmFdBind_of_free (fdIndex_val f) hfree c .null 0 0 0 0).1
      have hexact' := exact_okmFdBind hexact c f.val (show Kind.null ≠ .free by decide) 0 0 0 0
      have hnew : (Op.null 0).apply c s.port = (s.port.okmFdBind c f.val .null 0 0 0 0).1 := by
        unfold Op.apply bindNew
        rw [hf]
      rw [← hnew] at hvac hset' hexact'
      generalize hw : (Op.null 0).apply c s.port = w at hvac hset' hexact'
      obtain ⟨t, ht, hphase, hts, htv⟩ :=
        ih (s := { s with port := w }) hc hexact' (hset'.trans hset) (by
          have hv' : vacant w.named = n + k := by omega
          exact hv')
      refine ⟨t, run_cons.mpr ⟨_, ?_, ht⟩, hphase, hts, htv⟩
      simp only [step, hw]
      rw [if_pos ⟨hc, trivial⟩]

/-- A program that has opened the null device until one descriptor is left. -/
theorem exists_one_free :
    ∃ s, Reachable step (System.start 1 .supplied) s ∧ s.holder = none ∧
      vacant s.port.named = 1 := by
  have hstart := settlingInv_start 1 .supplied
  let s₁ : System := ({ System.start 1 .supplied with holder := some 1 }).setPhase 1 .holding
  have hlock : step (System.start 1 .supplied) (.lock 1) = some s₁ := rfl
  have hphase : s₁.phase 1 = .holding := by simp [s₁, setPhase]
  have hexact : (System.start 1 .supplied).port.Exact := exact_of_reachable (Reachable.refl step _)
  have hset : s₁.port.settling = [] := hstart.settling_eq_nil rfl
  have hvac : vacant s₁.port.named = 1020 + 1 := by
    have h₃ : vacant s₁.port.named + 3 = 1024 := vacant_okmTableInit 1 .supplied
    omega
  obtain ⟨t, ht, htphase, htset, htv⟩ := exists_run_null 1020 1 hphase hexact hset hvac
  refine ⟨(t.okmUnlock 1), ?_, ?_, ?_⟩
  · refine Reachable.tail ⟨.lock 1 :: List.replicate 1020 (.op 1 (.null 0)),
      run_cons.mpr ⟨s₁, hlock, ht⟩⟩ (.unlock 1) ?_
    simp only [step]
    rw [if_pos (by rw [htphase]; exact hphase)]
  · rw [okmUnlock, if_pos htset]
    rfl
  · rw [okmUnlock, if_pos htset]
    exact htv

end System

/-- **A pipe that fails and leaves its first end bound**: on a reachable table with one descriptor
free. -/
theorem pipe_not_clean :
    ∃ s, Reachable System.step (System.start 1 .supplied) s ∧ s.holder = none ∧
      vacant s.port.named = 1 ∧
      ¬ ((Call.pipe2 true 0).run 1 .granting s.port).Clean s.port := by
  obtain ⟨s, hs, hfree, hv⟩ := System.exists_one_free
  refine ⟨s, hs, hfree, hv, ?_⟩
  have hset := (System.settlingInv_of_reachable hs).settling_eq_nil hfree
  rw [Call.run, clean_doPipe2_iff (System.exact_of_reachable hs) hset, not_not]
  exact ⟨⟨rfl, rfl, fun _ => rfl, 40, 41, rfl⟩, hv⟩

end OpenkalMusl
