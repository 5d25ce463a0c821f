import OpenkalMusl.Descriptors.Table
import OpenkalMusl.Transition.Run

/-!
# The descriptor table under its lock

What contexts do to the table. A context takes the lock, performs any number of operations and
releases the lock; what it let go of is closed as it does so, after the lock is free again. The
steps of different contexts interleave in any order.

An operation is what a call does between `okm_lock` and `okm_unlock`: `openat`, `pipe2`, `socket`
and `accept` bind a new descriptor, `dup`, `dup2`, `dup3` and `fcntl` duplicate one, `close` and
the waiting image of `execve` release. `F_SETFD` and the calls on a socket change the table
without the lock.

## Main definitions

* `Op`, `Op.apply`: the operations
* `System`, `System.step`: contexts over one table
* `OpRules`: a predicate that every operation of a context keeps

## Main results

* `OpRules.apply`: what the table's functions keep, every operation keeps
* `port_invariant`: what every function keeps holds in every reachable state
-/

namespace OpenkalMusl

open Transition

namespace PortState

/-! ## Operations -/

/-- The lowest free descriptor, bound. -/
def bindNew (w : PortState) (me : Context) (kind : Kind) (stream file dir : Handle) (flags : ℕ) :
    PortState × Except Errno (Fin okmMaxFd) :=
  match w.okmFdAlloc 0 with
  | .error e => (w, .error e)
  | .ok f => w.okmFdBind me f.val kind stream file dir flags

/-- A directory's descriptor, with its absolute name where it has one; `alloc` is what
`kal_alloc` answers. -/
def bindDir (w : PortState) (me : Context) (dir : Handle) (flags : ℕ) (name : Option Text)
    (alloc : Option ℕ) : PortState × Except Errno (Fin okmMaxFd) :=
  match w.bindNew me .dir 0 0 dir flags with
  | (w, .error e) => (w, .error e)
  | (w, .ok f) =>
    match name with
    | some abs => (w.okmDirRemember f.val abs alloc, .ok f)
    | none => (w, .ok f)

/-- The description a descriptor names is given a socket's slot. -/
def setSock (w : PortState) (f : Fin okmMaxFd) (slot : Fin okmMaxSock) : PortState :=
  match w.okmDescOf f.val with
  | some d => w.setDesc d { w.desc d with sock := some slot }
  | none => w

/-- A descriptor and a slot of the socket table, filled in by `fill`. -/
def bindSock (w : PortState) (me : Context) (stream : Handle) (flags : ℕ) (fill : Sock → Sock) :
    PortState × Except Errno (Fin okmMaxFd) :=
  match w.okmFdAlloc 0 with
  | .error e => (w, .error e)
  | .ok f =>
    match w.slotAlloc with
    | none => (w, .error .enfile)
    | some (slot, w) =>
      let w := (w.okmFdBind me f.val .socket stream 0 0 flags).1
      let w := w.setSock f slot
      ({ w with sock := Function.update w.sock slot (fill (w.sock slot)) }, .ok f)

/-- The part of `okm_sock_open` under the lock. -/
def sockOpen (w : PortState) (me : Context) (domain type protocol : Int) (flags : ℕ) :
    PortState × Except Errno (Fin okmMaxFd) :=
  w.bindSock me 0 flags fun s =>
    { s with domain := domain, type := type, protocol := protocol }

/-- Places a connection into a descriptor of its own; a connection that cannot be placed is
closed. -/
def adopt (w : PortState) (me : Context) (conn stream : Handle) (flags : ℕ) :
    PortState × Except Errno (Fin okmMaxFd) :=
  match w.bindSock me stream (oRdwr ||| flags) fun s =>
      { s with state := .conn, conn := conn, type := 1 } with
  | (w, .error e) => (w.record (.returned me (.conn conn)), .error e)
  | (w, .ok f) => (w, .ok f)

/-- `F_DUPFD`: the lowest free descriptor at or above `from_` is given. -/
def dupFrom (w : PortState) (me : Context) (fd from_ : Int) (cloexec : Bool) :
    PortState × Except Errno (Fin okmMaxFd) :=
  match w.okmFdAlloc from_ with
  | .error e => (w, .error e)
  | .ok f => w.okmFdDup me fd f.val cloexec

end PortState

/-- What a call does to the table between `okm_lock` and `okm_unlock`. -/
inductive Op where
  | null (flags : ℕ)
  | file (stream file : Handle) (flags : ℕ)
  | dir (dir : Handle) (flags : ℕ) (name : Option Text) (alloc : Option ℕ)
  | channel (stream : Handle) (flags : ℕ)
  | socket (domain type protocol : Int) (flags : ℕ)
  | adopt (conn stream : Handle) (flags : ℕ)
  | dup (fd newfd : Int) (cloexec : Bool)
  | dupFrom (fd from_ : Int) (cloexec : Bool)
  | release (fd : Int)
  | cloexec (fd : Int) (on : Bool)
  | closeAll
  deriving DecidableEq

namespace Op

open PortState

def apply (me : Context) (w : PortState) : Op → PortState
  | .null flags => (w.bindNew me .null 0 0 0 flags).1
  | .file stream h flags => (w.bindNew me .file stream h 0 flags).1
  | .dir h flags name alloc => (w.bindDir me h flags name alloc).1
  | .channel stream flags => (w.bindNew me .channel stream 0 0 flags).1
  | .socket domain type protocol flags => (w.sockOpen me domain type protocol flags).1
  | .adopt conn stream flags => (w.adopt me conn stream flags).1
  | .dup fd newfd on => (w.okmFdDup me fd newfd on).1
  | .dupFrom fd from_ on => (w.dupFrom me fd from_ on).1
  | .release fd => w.okmFdRelease me fd
  | .cloexec fd on => (w.okmFdCloexec fd on).1
  | .closeAll => w.releaseAll me

/-- What the environment answers: `kal_alloc` gives memory of its own, which the snapshot's arena
is not. -/
def Answered (w : PortState) : Op → Prop
  | .dir _ _ _ alloc => ∀ a ∈ alloc, w.okmFromSnapshot a = false
  | _ => True

instance (w : PortState) (op : Op) : Decidable (op.Answered w) := by
  cases op <;> unfold Answered <;> infer_instance

end Op

/-! ## Contexts over one table -/

/-- Where a context is: outside any call on the table, holding the lock, or past its release with
these descriptions still to close. -/
inductive Phase where
  | idle
  | holding
  | closing (mine : List Desc)
  deriving DecidableEq

structure System where
  port : PortState
  holder : Option Context
  phase : Context → Phase

inductive Label where
  | lock (c : Context)
  | op (c : Context) (op : Op)
  | unlock (c : Context)
  /-- The next description that was let go is closed. -/
  | close (c : Context)
  /-- The call returns. -/
  | ret (c : Context)
  /-- A call gives back what it obtained and could not bind. -/
  | giveBack (c : Context) (r : Resource)
  /-- `F_SETFD`, which takes no lock. -/
  | setfd (fd : Int) (on : Bool)
  /-- A call on a socket changes its slot, which takes no lock. -/
  | sockCall (slot : Fin okmMaxSock) (s : Sock)

namespace System

def setPhase (s : System) (c : Context) (ph : Phase) : System :=
  { s with phase := Function.update s.phase c ph }

/-- `okm_unlock`: with nothing to close the lock is released and the call returns; otherwise what
this context let go of is taken out first. -/
def okmUnlock (s : System) (c : Context) : System :=
  if s.port.settling = [] then ({ s with holder := none }).setPhase c .idle
  else
    let r := s.port.takeSettling c
    ({ s with port := r.2, holder := none }).setPhase c (.closing r.1)

/-- One step of one context. -/
def step (s : System) : Label → Option System
  | .lock c =>
    if s.holder = none ∧ s.phase c = .idle then
      some (({ s with holder := some c }).setPhase c .holding)
    else none
  | .op c op =>
    if s.phase c = .holding ∧ op.Answered s.port then
      some { s with port := op.apply c s.port }
    else none
  | .unlock c => if s.phase c = .holding then some (s.okmUnlock c) else none
  | .close c =>
    match s.phase c with
    | .closing (p :: mine) =>
      some (({ s with port := s.port.closeOwned c p }).setPhase c (.closing mine))
    | _ => none
  | .ret c => if s.phase c = .closing [] then some (s.setPhase c .idle) else none
  | .giveBack c r => some { s with port := s.port.record (.returned c r) }
  | .setfd fd on => some { s with port := (s.port.okmFdCloexec fd on).1 }
  | .sockCall slot t =>
    if (s.port.sock slot).state ≠ .free ∧ t.state ≠ .free then
      some { s with port := { s.port with sock := Function.update s.port.sock slot t } }
    else none

/-- A program's table as `okm_table_init` leaves it, with no context in a call. -/
def start (me : Context) (start : Start) : System where
  port := .okmTableInit me start
  holder := none
  phase := fun _ => .idle

end System

/-! ## What operations keep -/

open PortState

/-- The functions of the table, called by the context `me`, keep `I`. -/
structure OpRules (me : Context) (I : PortState → Prop) : Prop where
  bind : ∀ w f kind stream file dir flags, kind ≠ .free → I w →
    I (w.okmFdBind me f kind stream file dir flags).1
  dup : ∀ w fd newfd cloexec, I w → I (w.okmFdDup me fd newfd cloexec).1
  release : ∀ w fd, I w → I (w.okmFdRelease me fd)
  cloexec : ∀ w fd on, I w → I (w.okmFdCloexec fd on).1
  remember : ∀ w fd abs alloc, (∀ a ∈ alloc, w.okmFromSnapshot a = false) → I w →
    I (w.okmDirRemember fd abs alloc)
  sock : ∀ w t, I w → I { w with sock := t }
  descSock : ∀ w d slot, I w → I (w.setDesc d { w.desc d with sock := slot })
  returned : ∀ w r, I w → I (w.record (.returned me r))

namespace PortState

@[simp] theorem descRelease_arena (w : PortState) (me : Context) (d : Fin okmMaxDesc) :
    (w.descRelease me d).arena = w.arena := by
  unfold descRelease
  simp only
  split_ifs <;> simp

theorem okmFdBind_arena (w : PortState) (me : Context) (fd : Int) (kind : Kind)
    (stream file dir : Handle) (flags : ℕ) :
    (w.okmFdBind me fd kind stream file dir flags).1.arena = w.arena := by
  rcases w.okmFdBind_cases me fd kind stream file dir flags with he | ⟨f, d, -, -, he⟩
  · rw [he]
  · rw [he, setFd_arena, vacate]
    split <;> simp [bindDesc]

end PortState

namespace OpRules

variable {me : Context} {I : PortState → Prop} (h : OpRules me I)

include h

theorem bindNew {w : PortState} {kind : Kind} (hk : kind ≠ .free) (stream file dir : Handle)
    (flags : ℕ) (hw : I w) : I (w.bindNew me kind stream file dir flags).1 := by
  unfold PortState.bindNew
  split
  · exact hw
  · exact h.bind w _ kind stream file dir flags hk hw

theorem bindDir {w : PortState} (dir : Handle) (flags : ℕ) (name : Option Text)
    {alloc : Option ℕ} (halloc : ∀ a ∈ alloc, w.okmFromSnapshot a = false) (hw : I w) :
    I (w.bindDir me dir flags name alloc).1 := by
  have hbind : I (w.bindNew me .dir 0 0 dir flags).1 := h.bindNew (by decide) 0 0 dir flags hw
  -- the bind leaves the snapshot alone, so the memory for the name is still none of it
  have harena : (w.bindNew me .dir 0 0 dir flags).1.arena = w.arena := by
    unfold PortState.bindNew
    split
    · rfl
    · exact okmFdBind_arena ..
  unfold PortState.bindDir
  generalize w.bindNew me .dir 0 0 dir flags = r at hbind harena ⊢
  obtain ⟨w', e | f⟩ := r
  · exact hbind
  · cases name with
    | none => exact hbind
    | some abs =>
      have halloc' : ∀ a ∈ alloc, w'.okmFromSnapshot a = false := by
        intro a ha
        have := halloc a ha
        rwa [okmFromSnapshot, ← harena] at this
      simpa only using h.remember w' f.val abs alloc halloc' hbind

theorem bindSock {w : PortState} (stream : Handle) (flags : ℕ) (fill : Sock → Sock) (hw : I w) :
    I (w.bindSock me stream flags fill).1 := by
  unfold PortState.bindSock
  split
  · exact hw
  · split
    · exact hw
    · rename_i slot w' hslot
      -- the slot is taken, then the descriptor is bound and given it
      have hw' : I w' := by
        unfold slotAlloc at hslot
        obtain ⟨i, -, he⟩ := Option.map_eq_some_iff.mp hslot
        cases he
        exact h.sock _ _ hw
      refine h.sock _ _ ?_
      unfold setSock
      split
      · exact h.descSock _ _ _ (h.bind _ _ _ _ _ _ _ (by decide) hw')
      · exact h.bind _ _ _ _ _ _ _ (by decide) hw'

theorem adopt {w : PortState} (conn stream : Handle) (flags : ℕ) (hw : I w) :
    I (w.adopt me conn stream flags).1 := by
  unfold PortState.adopt
  have hbind := h.bindSock stream (oRdwr ||| flags)
    (fun s => { s with state := .conn, conn := conn, type := 1 }) hw
  split <;> rename_i heq <;> rw [heq] at hbind
  · exact h.returned _ _ hbind
  · exact hbind

theorem dupFrom {w : PortState} (fd from_ : Int) (cloexec : Bool) (hw : I w) :
    I (w.dupFrom me fd from_ cloexec).1 := by
  unfold PortState.dupFrom
  cases w.okmFdAlloc from_ with
  | error e => exact hw
  | ok f => exact h.dup w fd f.val cloexec hw

theorem releaseAll {w : PortState} (hw : I w) : I (w.releaseAll me) := by
  unfold PortState.releaseAll
  generalize List.finRange okmMaxFd = fds
  -- one descriptor after another, from whatever table the ones before it left
  induction fds generalizing w with
  | nil => exact hw
  | cons f fds ih =>
    rw [List.foldl_cons]
    exact ih (h.release w f.val hw)

/-- **What the table's functions keep, every operation keeps.** -/
theorem apply {w : PortState} (op : Op) (hop : op.Answered w) (hw : I w) : I (op.apply me w) := by
  cases op with
  | null flags => exact h.bindNew (by decide) _ _ _ _ hw
  | file stream file flags => exact h.bindNew (by decide) _ _ _ _ hw
  | dir dir flags name alloc => exact h.bindDir dir flags name hop hw
  | channel stream flags => exact h.bindNew (by decide) _ _ _ _ hw
  | socket domain type protocol flags => exact h.bindSock _ _ _ hw
  | adopt conn stream flags => exact h.adopt conn stream flags hw
  | dup fd newfd cloexec => exact h.dup w fd newfd cloexec hw
  | dupFrom fd from_ cloexec => exact h.dupFrom fd from_ cloexec hw
  | release fd => exact h.release w fd hw
  | cloexec fd on => exact h.cloexec w fd on hw
  | closeAll => exact h.releaseAll hw

/-- The table as it is initialised. -/
theorem okmTableInit (start : Start) (hmem : I (okmTableInitMemory start))
    (hstart : ∀ w streams pre cwd cwdDir, I w →
      I { w with stdStream := streams, pre := pre, cwd := cwd, cwdDir := cwdDir }) :
    I (PortState.okmTableInit me start) := by
  -- the standard streams are written before the descriptors are bound
  have hstreams := hstart _ start.streams (okmTableInitMemory start).pre
    (okmTableInitMemory start).cwd (okmTableInitMemory start).cwdDir hmem
  have h₀ := h.bind _ 0 .stream (start.streams 0) 0 0 oRdonly (by decide) hstreams
  have h₁ := h.bind _ 1 .stream (start.streams 1) 0 0 oWronly (by decide) h₀
  have h₂ : I ((okmTableInitMemory start).bindStreams me start.streams) :=
    h.bind _ 2 .stream (start.streams 2) 0 0 oWronly (by decide) h₁
  unfold PortState.okmTableInit okmTableInitStreams
  simp only
  split
  · exact hstart _ _ _ _ _ h₂
  · exact hstart _ _ _ _ _ h₂

end OpRules

/-- Releasing a socket records what its state holds, and a connection not yet taken. -/
theorem okmSockRelease_keeps {I : PortState → Prop} {me : Context}
    (hclosed : ∀ w r, r.settles = false → I w → I (w.record (.closed me r)))
    (hsock : ∀ w t, I w → I { w with sock := t }) {w : PortState}
    (slot : Option (Fin okmMaxSock)) (hw : I w) : I (w.okmSockRelease me slot) := by
  cases slot with
  | none => exact hw
  | some slot =>
    unfold okmSockRelease
    simp only
    refine hsock _ _ ?_
    split_ifs
    · refine hclosed _ _ rfl ?_
      split
      · exact hclosed _ _ rfl hw
      · exact hclosed _ _ rfl hw
      · exact hclosed _ _ rfl hw
      · exact hw
    · split
      · exact hclosed _ _ rfl hw
      · exact hclosed _ _ rfl hw
      · exact hclosed _ _ rfl hw
      · exact hw

/-- Closing what a description owns records it, and may free a socket's slot. -/
theorem closeOwned_keeps {I : PortState → Prop} {me : Context}
    (hclosed : ∀ w r, I w → I (w.record (.closed me r)))
    (hsock : ∀ w t, I w → I { w with sock := t }) {w : PortState} (p : Desc) (hw : I w) :
    I (w.closeOwned me p) := by
  unfold closeOwned
  split
  · exact hclosed _ _ hw
  · exact hclosed _ _ hw
  · exact hclosed _ _ hw
  · exact okmSockRelease_keeps (fun w r _ => hclosed w r) hsock _ hw
  · exact hw

/-- What a description owned is recorded as let go, and kept to be closed or closed at once. -/
theorem letGo_keeps {I : PortState → Prop} {me : Context}
    (hletGo : ∀ w r, I w → I (w.record (.letGo me r)))
    (hclosed : ∀ w r, I w → I (w.record (.closed me r)))
    (hsock : ∀ w t, I w → I { w with sock := t })
    (hsettling : ∀ w l, I w → I { w with settling := l }) {w : PortState} (p : Desc) (hw : I w) :
    I (w.letGo me p) := by
  have hlet : I (w.noteLetGo me p) := by
    unfold noteLetGo
    split
    · exact hletGo _ _ hw
    · exact hw
  unfold letGo settle
  split_ifs
  · -- a socket is closed here
    exact closeOwned_keeps hclosed hsock p hlet
  · exact hsettling _ _ hlet
  · -- the array is full
    exact closeOwned_keeps hclosed hsock p hlet
  · exact hlet

namespace System

/-- **What every function keeps holds of the table in every reachable state.** -/
theorem port_invariant {I : PortState → Prop} (hrules : ∀ me, OpRules me I)
    (hmem : ∀ start, I (okmTableInitMemory start))
    (hstart : ∀ w streams pre cwd cwdDir, I w →
      I { w with stdStream := streams, pre := pre, cwd := cwd, cwdDir := cwdDir })
    (hsettling : ∀ w l, I w → I { w with settling := l })
    (hclosed : ∀ w me r, I w → I (w.record (.closed me r)))
    {me : Context} {start : Start} {s : System}
    (h : Reachable step (System.start me start) s) : I s.port := by
  refine h.invariant (I := fun s => I s.port) ?_ ?_
  · exact (hrules me).okmTableInit start (hmem start) hstart
  · intro s l t hs hl
    cases l with
    | lock c =>
      simp only [step] at hl
      split_ifs at hl
      cases hl
      exact hs
    | op c op =>
      simp only [step] at hl
      split_ifs at hl with hc
      cases hl
      exact (hrules c).apply op hc.2 hs
    | unlock c =>
      simp only [step] at hl
      split_ifs at hl
      cases hl
      unfold okmUnlock
      split_ifs
      · exact hs
      · exact hsettling _ _ hs
    | close c =>
      simp only [step] at hl
      split at hl
      · cases hl
        exact closeOwned_keeps (hclosed · c ·) (hrules c).sock _ hs
      · cases hl
    | ret c =>
      simp only [step] at hl
      split_ifs at hl
      cases hl
      exact hs
    | giveBack c r =>
      cases hl
      exact (hrules c).returned _ _ hs
    -- without the lock, and so in nobody's name
    | setfd fd on =>
      cases hl
      exact (hrules 0).cloexec _ _ _ hs
    | sockCall slot t =>
      simp only [step] at hl
      split_ifs at hl
      cases hl
      exact (hrules 0).sock _ _ hs

end System

end OpenkalMusl
