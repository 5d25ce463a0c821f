import OpenkalMusl.Spawn.Children
import OpenkalMusl.Transition.Ownership
import OpenkalMusl.Transition.Run

/-!
# Waiting for children

`wait4`, with the starts and forks that fill the table of children, as the contexts of a program
interleave their steps. A start records its program under the lock of the tables, and a `fork` takes
its entry under it before the copy exists; `wait4` reads the table, waits, and gives an entry back
without the lock.

A step is one look at an entry or one call of the environment. Programs are numbered as they are
started, since the environment may give a handle again once it was released.

## Main definitions

* `ChildPc`, `Parent.step`: where a context is, and the steps
* `Hand`: the entry or the program that a context has in hand
* `Parent.Once`: each program recorded is in one entry until the one call that returns
  its identifier
* `Parent.Alone`: no two calls of `wait4` use one entry
-/

namespace OpenkalMusl

open Transition

/-- Whom a `wait4` asks after. -/
structure WaitFor where
  pid : Int
  nohang : Bool
  deriving DecidableEq

namespace WaitFor

/-- It asks after any child. -/
def any (q : WaitFor) : Bool := q.pid ≤ 0

def accepts (q : WaitFor) (e : ChildEntry) : Bool := e.used && (q.any || e.pid = q.pid)

end WaitFor

/-- Where a context is. The program that was in an entry when a call found it is named with it, and
so is the one whose handle was closed. -/
inductive ChildPc where
  | idle
  /-- `posix_spawn`: the program runs, and its handle is to be recorded. -/
  | started (n : ℕ) (h : Handle)
  | recording (i n : ℕ) (h : Handle)
  /-- `fork`, with its entry reserved. -/
  | forking (i : ℕ)
  /-- `wait4`: the entries are looked at one after another, and the program of one is waited for. -/
  | find (q : WaitFor) (k : ℕ)
  | wait (nohang : Bool) (i : ℕ) (found : Option ℕ)
  /-- `WNOHANG` for any child: each entry in use is asked after. -/
  | poll (k : ℕ)
  | ask (k : ℕ) (found : Option ℕ)
  /-- The program has ended. -/
  | usage (i : ℕ) (found : Option ℕ)
  | close (i : ℕ) (found : Option ℕ)
  | take (i : ℕ) (closed : Option ℕ)
  | free (i : ℕ) (closed : Option ℕ) (got : Int)
  deriving DecidableEq

/-- A program with `m` contexts, and its children. -/
structure Parent (m : ℕ) where
  table : Children
  /-- The context that holds the lock of the tables. -/
  holder : Option (Fin m)
  call : Fin m → ChildPc
  /-- Whether a bounded wait is to be had. -/
  bounded : Bool
  /-- The programs started so far, the ones that ended, and the one a handle names. -/
  count : ℕ
  ended : ℕ → Bool
  names : Handle → Option ℕ
  /-- The program in an entry, and the identifier a program was recorded under. -/
  holds : ℕ → Option ℕ
  pidOf : ℕ → Option Int
  /-- The handles obtained and released, by their programs. -/
  hist : List (Traffic ℕ)
  /-- The program whose handle a `wait4` closed, and what it returned. -/
  reaped : List (Option ℕ × Int)
  /-- The uses of an entry that no longer held the program that was found there. -/
  stale : List (Fin m × ℕ)

/-- What the environment answers to a wait. -/
inductive WaitAnswer where
  | ended | again | failed
  deriving DecidableEq

inductive ParentLabel (m : ℕ) where
  /-- `posix_spawn` has started a program. -/
  | spawn (c : Fin m) (h : Handle)
  /-- It comes to record the program: an entry is reserved, and then filled. -/
  | record (c : Fin m)
  | commit (c : Fin m) (id : Option Int) (j : Handle)
  | fork (c : Fin m)
  | forkFails (c : Fin m)
  | forkStarts (c : Fin m) (h : Handle) (id : Option Int)
  /-- The run goes on in the copy. -/
  | forkCopy (c : Fin m)
  | wait4 (c : Fin m) (q : WaitFor)
  | step (c : Fin m)
  /-- The environment answers a wait. -/
  | answer (c : Fin m) (a : WaitAnswer)
  | ends (n : ℕ)
  deriving DecidableEq

/-- The entry that a look finds for a call to wait for. -/
def ChildPc.finds (t : Children) : ChildPc → Option ℕ
  | .find q k =>
    if k < okmMaxChild ∧ q.accepts (t.entry k) = true ∧ (q.nohang && q.any) = false
      then some k else none
  | .poll k => if k < okmMaxChild ∧ (t.entry k).used = true then some k else none
  | _ => none

namespace Parent

variable {m : ℕ}

/-- A program that has started no other. -/
def start (m : ℕ) (bounded : Bool) : Parent m where
  table := .empty
  holder := none
  call := fun _ => .idle
  bounded := bounded
  count := 0
  ended := fun _ => false
  names := fun _ => none
  holds := fun _ => none
  pidOf := fun _ => none
  hist := []
  reaped := []
  stale := []

def goto (s : Parent m) (c : Fin m) (pc : ChildPc) : Parent m :=
  { s with call := Function.update s.call c pc }

/-- The context uses the program that it found in an entry. -/
def touch (s : Parent m) (c : Fin m) (i : ℕ) (found : Option ℕ) : Parent m :=
  if found ≠ none ∧ s.holds i = found then s else { s with stale := s.stale ++ [(c, i)] }

/-- The environment starts a program under a handle that names none. -/
def begin (s : Parent m) (h : Handle) : Parent m :=
  { s with
    count := s.count + 1
    names := Function.update s.names h (some s.count)
    hist := s.hist ++ [.got s.count] }

/-- The environment releases a handle. -/
def release (s : Parent m) (h : Handle) : Parent m :=
  match s.names h with
  | none => s
  | some n =>
    { s with names := Function.update s.names h none, hist := s.hist ++ [.gave n] }

/-- An entry is filled with a program. -/
def fill (s : Parent m) (id : Option Int) (i n : ℕ) (h j : Handle) : Parent m :=
  let t := (s.table.commit id i h).childJob i j
  { s with
    table := t
    holds := Function.update s.holds i (some n)
    pidOf := Function.update s.pidOf n (some (t.entry i).pid) }

/-- The next step of a `wait4` that does not wait for an answer. -/
def waitStep (s : Parent m) (c : Fin m) : Option (Parent m) :=
  match s.call c with
  | .find q k =>
    if k < okmMaxChild then
      if q.accepts (s.table.entry k) = true then
        if q.nohang = true ∧ s.bounded = false then some (s.goto c .idle)
        else if (q.nohang && q.any) = true then some (s.goto c (.poll 0))
        else some (s.goto c (.wait q.nohang k (s.holds k)))
      else some (s.goto c (.find q (k + 1)))
    else some (s.goto c .idle)
  | .poll k =>
    if k < okmMaxChild then
      if (s.table.entry k).used = true then some (s.goto c (.ask k (s.holds k)))
      else some (s.goto c (.poll (k + 1)))
    else some (s.goto c .idle)
  | .usage i found => some ((s.touch c i found).goto c (.close i found))
  | .close i found =>
    let h := (s.table.entry i).h
    some ({ (s.touch c i found).release h with
      holds := Function.update s.holds i none }.goto c (.take i (s.names h)))
  | .take i closed => some (s.goto c (.free i closed (s.table.entry i).pid))
  | .free i closed got =>
    some ({ s with table := s.table.release i, reaped := s.reaped ++ [(closed, got)] }.goto c .idle)
  | _ => none

/-- The program that a handle names has ended. -/
def endedAt (s : Parent m) (i : ℕ) : Bool := (s.names (s.table.entry i).h).all s.ended

/-- What a `wait4` does with an answer. -/
def waitAnswer (s : Parent m) (c : Fin m) (a : WaitAnswer) : Option (Parent m) :=
  match s.call c with
  | .wait nohang i found =>
    match a with
    | .ended => if s.endedAt i then some ((s.touch c i found).goto c (.usage i found)) else none
    | .again => if nohang then some ((s.touch c i found).goto c .idle) else none
    | .failed => some ((s.touch c i found).goto c .idle)
  | .ask k found =>
    match a with
    | .ended => if s.endedAt k then some ((s.touch c k found).goto c (.usage k found)) else none
    | .again => some ((s.touch c k found).goto c (.poll (k + 1)))
    | .failed => some ((s.touch c k found).goto c .idle)
  | _ => none

/-- The copy of a program that forked: it has one context, and no children. -/
def copied (s : Parent m) : Parent m where
  table := s.table.forgetChildren
  holder := none
  call := fun _ => .idle
  bounded := s.bounded
  count := s.count
  ended := s.ended
  names := fun _ => none
  holds := fun _ => none
  pidOf := fun _ => none
  hist := []
  reaped := []
  stale := []

/-- One step. -/
def step (s : Parent m) : ParentLabel m → Option (Parent m)
  | .spawn c h =>
    if s.call c = .idle ∧ s.names h = none
      then some ((s.begin h).goto c (.started s.count h)) else none
  | .record c =>
    match s.call c with
    | .started n h =>
      if s.holder = none then
        match s.table.reserve with
        | none => some ((s.release h).goto c .idle)
        | some (i, t) => some ({ s with table := t, holder := some c }.goto c (.recording i n h))
      else none
    | _ => none
  | .commit c id j =>
    match s.call c with
    | .recording i n h => some ({ s.fill id i n h j with holder := none }.goto c .idle)
    | _ => none
  | .fork c =>
    if s.call c = .idle ∧ s.holder = none then
      match s.table.reserve with
      | none => some s
      | some (i, t) => some ({ s with table := t, holder := some c }.goto c (.forking i))
    else none
  | .forkFails c =>
    match s.call c with
    | .forking i => some ({ s with table := s.table.release i, holder := none }.goto c .idle)
    | _ => none
  | .forkStarts c h id =>
    match s.call c with
    | .forking i =>
      if s.names h = none then
        some ({ (s.begin h).fill id i s.count h 0 with holder := none }.goto c .idle)
      else none
    | _ => none
  | .forkCopy c =>
    match s.call c with
    | .forking _ => some s.copied
    | _ => none
  | .wait4 c q => if s.call c = .idle then some (s.goto c (.find q 0)) else none
  | .step c => s.waitStep c
  | .answer c a => s.waitAnswer c a
  | .ends n => some { s with ended := Function.update s.ended n true }

end Parent

/-! ## What a context has in hand -/

/-- The entry or the program that a context has in hand. -/
inductive Hand where
  /-- A program that runs and is not recorded. -/
  | program (n : ℕ) (h : Handle)
  /-- An entry that is reserved, with the program to be recorded there. -/
  | reserved (i : ℕ) (recorded : Option (ℕ × Handle))
  /-- An entry that was found, and whose program is waited for. -/
  | found (i : ℕ) (n : Option ℕ)
  /-- An entry whose program has ended, and is about to be closed. -/
  | settled (i : ℕ) (n : Option ℕ)
  /-- An entry whose handle was closed, with what is to be returned. -/
  | closed (i : ℕ) (n : Option ℕ) (got : Option Int)
  deriving DecidableEq

namespace Hand

def entry : Hand → Option ℕ
  | .program _ _ => none
  | .reserved i _ | .found i _ | .settled i _ | .closed i _ _ => some i

/-- The entry is given, or about to be given, another content. -/
def changes : Hand → Bool
  | .reserved _ _ | .settled _ _ | .closed _ _ _ => true
  | .program _ _ | .found _ _ => false

/-- The entry is in use without a program in it. -/
def keeps : Hand → Option ℕ
  | .reserved i _ | .closed i _ _ => some i
  | .program _ _ | .found _ _ | .settled _ _ => none

/-- The program that is nowhere else. -/
def owns : Hand → Option ℕ
  | .program n _ | .reserved _ (some (n, _)) => some n
  | .reserved _ none | .found _ _ | .settled _ _ | .closed _ _ _ => none

end Hand

def ChildPc.hand : ChildPc → Option Hand
  | .idle | .find _ _ | .poll _ => none
  | .started n h => some (.program n h)
  | .recording i n h => some (.reserved i (some (n, h)))
  | .forking i => some (.reserved i none)
  | .wait _ i found | .ask i found => some (.found i found)
  | .usage i found | .close i found => some (.settled i found)
  | .take i closed => some (.closed i closed none)
  | .free i closed got => some (.closed i closed (some got))

def ChildPc.entry (pc : ChildPc) : Option ℕ := pc.hand.bind Hand.entry

def ChildPc.changes (pc : ChildPc) (i : ℕ) : Bool :=
  pc.hand.any fun hd => hd.changes && hd.entry = some i

namespace Parent

variable {m : ℕ}

/-- Who has a program: an entry, or a context. -/
def Owns (s : Parent m) : ℕ ⊕ Fin m → ℕ → Prop
  | .inl i, n => s.holds i = some n
  | .inr c, n => (s.call c).hand.bind Hand.owns = some n

/-- The entry is in use, and no program is in it: it is reserved, or was closed. -/
def Between (s : Parent m) (i : ℕ) : Prop := ∃ c, (s.call c).hand.bind Hand.keeps = some i

/-- **Each child is waited for once.** -/
structure Once (s : Parent m) : Prop where
  /-- A program whose handle was not released is in one place, and no handle is released twice. -/
  owned : Owned s.Owns s.hist
  /-- An entry is in use exactly while a program is in it, a start has reserved it, or the call that
  closed its program's handle has not returned. -/
  used : ∀ i, (s.table.entry i).used = true ↔ (∃ n, s.holds i = some n) ∨ s.Between i
  held : ∀ i n, s.holds i = some n → s.names (s.table.entry i).h = some n ∧
    s.pidOf n = some (s.table.entry i).pid
  /-- A program that was recorded is in its entry until a call closes its handle, which returns its
  identifier. -/
  recorded : ∀ n p, s.pidOf n = some p → (∃ i, s.holds i = some n) ∨
    (∃ c i got, (s.call c).hand = some (.closed i (some n) got)) ∨ (some n, p) ∈ s.reaped
  reaped : ∀ r ∈ s.reaped, ∃ n, r.1 = some n ∧ s.pidOf n = some r.2 ∧ n ∉ Traffic.holding s.hist
  nodup : (s.reaped.map Prod.fst).Nodup
  /-- No call uses an entry that another has released. -/
  unused : s.stale = []
  /-- A call that returns no identifier leaves the table, and a fork that fails gives
  its entry back. -/
  quiet : ∀ c u, s.step (.step c) = some u → (∀ i closed got, s.call c ≠ .free i closed got) →
    u.table = s.table
  unanswered : ∀ c a u, s.step (.answer c a) = some u → u.table = s.table
  givenBack : ∀ c u i, s.call c = .forking i → s.step (.forkFails c) = some u →
    (u.table.entry i).used = false

/-- No context is about to change the entry. -/
def Free (s : Parent m) (i : ℕ) : Prop := ∀ d, (s.call d).changes i = false

instance (s : Parent m) (i : ℕ) : Decidable (s.Free i) :=
  inferInstanceAs (Decidable (∀ d, (s.call d).changes i = false))

/-- No other context has the entry in hand. -/
def Sole (s : Parent m) (c : Fin m) (i : ℕ) : Prop := ∀ d, d ≠ c → (s.call d).entry ≠ some i

instance (s : Parent m) (c : Fin m) (i : ℕ) : Decidable (s.Sole c i) :=
  inferInstanceAs (Decidable (∀ d, d ≠ c → (s.call d).entry ≠ some i))

/-- No two calls use one entry: an entry is found only while nobody is changing it, and a call that
learns of the end of its program has the entry for itself. -/
def Alone (s : Parent m) : ParentLabel m → Prop
  | .step c => ∀ i ∈ (s.call c).finds s.table, s.Free i
  | .answer c .ended => ∀ i ∈ (s.call c).entry, s.Sole c i
  | _ => True

instance (s : Parent m) : (l : ParentLabel m) → Decidable (s.Alone l)
  | .step c => inferInstanceAs (Decidable (∀ i ∈ (s.call c).finds s.table, s.Free i))
  | .answer c .ended => inferInstanceAs (Decidable (∀ i ∈ (s.call c).entry, s.Sole c i))
  | .answer _ .again | .answer _ .failed | .spawn _ _ | .record _ | .commit _ _ _ | .fork _
  | .forkFails _ | .forkStarts _ _ _ | .forkCopy _ | .wait4 _ _ | .ends _ => isTrue trivial

end Parent

end OpenkalMusl
