import OpenkalMusl.Spawn.Children
import OpenkalMusl.Spawn.Grants
import OpenkalMusl.Transition.Run

/-!
# Starting a program

`posix_spawn`, `posix_spawnp` and the start inside `execve`: the checks and the file actions, the
start itself, and the child's entry. `posix_spawnp` makes one attempt for each entry of a search
path, and goes on after an answer that says something of that entry alone.

Of what a start needs only the table of children is bounded, and its entry is taken after the
program was started. Another context may fill the table in between, so the table a call is given
here is the one that it finds when it comes to record the child. Releasing the handle of a program
does not end the program.

## Main definitions

* `StartEnv`, `attempt`, `spawnCommon`: what the environment answers, the start, and the
  start recorded
* `candidates`, `search`: the search of `posix_spawnp`
* `StartCall.outcome`: the three calls
* `running`: the programs that a call started and did not end

## Main results

* `nothing_started_iff`: when an error means that no program was started
* `started_and_refused`: an error for a program that runs
-/

namespace OpenkalMusl

open Transition

/-- What the environment answers in one call; it may answer differently at each attempt. -/
structure StartEnv where
  spawn : ℕ → SpawnEnv
  props : ProcessProps
  /-- `kal_process_spawn`: the program's handle, and its unit's. -/
  start : ℕ → KalSpawn → Request → Except KalError (Handle × Handle)
  /-- The identifier that `kal_process_info` gives, where it is one of this library's. -/
  ident : Handle → Option Int
  /-- `getenv("PATH")`. -/
  path : Option Text

/-- What a call does to programs. -/
inductive ProcessEvent where
  | started (h : Handle)
  | released (h : Handle)
  deriving DecidableEq

def ProcessEvent.starts : ProcessEvent → Option Handle
  | .started h => some h
  | .released _ => none

/-- The programs that were started, and which nothing ended. -/
def running (log : List ProcessEvent) : List Handle := log.filterMap ProcessEvent.starts

/-- What a call answers, the table it leaves, and what it did. -/
structure StartOutcome where
  answer : Except Errno Int
  table : Children
  log : List ProcessEvent

/-- The arguments but the name. -/
structure StartArgs where
  res : Bool
  attr : Option SpawnAttr
  argv : List Text
  envp : List Text
  actions : FileActions

section Calls

variable (w : PortState) (env : StartEnv)

/-- The `n`-th attempt of a call, up to the start. -/
def attempt (n : ℕ) (bound : Bool) (args : StartArgs) (name : Option Text) :
    Except Errno (Handle × Handle) :=
  match w.okmSpawnCommon (env.spawn n) ⟨args.res, name, args.attr, args.argv, args.envp⟩
      args.actions with
  | .error e => .error e
  | .ok q =>
    let unit := args.attr.any fun a => hasFlag a.flags posixSpawnSetpgroup
    match env.start n (startProgram env.props bound unit w.pre q) q with
    | .error e => .error (okmErrno e)
    | .ok child => .ok child

/-- `__okm_spawn_common`. -/
def spawnCommon (n : ℕ) (bound : Bool) (args : StartArgs) (name : Option Text) (t : Children) :
    StartOutcome :=
  match attempt w env n bound args name with
  | .error e => ⟨.error e, t, []⟩
  | .ok (h, j) =>
    match t.recordJob (env.ident h) h j with
    | none => ⟨.error .eagain, t, [.started h, .released h]⟩
    | some (pid, u) => ⟨.ok pid, u, [.started h]⟩

/-- The entries of a search path. -/
def pathEntries : Text → List Text
  | [] => [[]]
  | c :: cs =>
    if c = ':' then [] :: pathEntries cs
    else match pathEntries cs with
      | [] => [[c]]
      | e :: es => (c :: e) :: es

def nameMax : ℕ := 255

/-- musl's own default search path. -/
def defaultPath : Text := "/usr/local/bin:/bin:/usr/bin".toList

/-- The names that a search tries: an empty entry means the working directory, and one that cannot
be joined to the name is passed over. -/
def candidates (path file : Text) : List Text :=
  ((pathEntries path).filter fun e =>
      e.length + (if e = [] then 0 else 1) + file.length + 1 ≤ okmMaxPath).map
    fun e => if e = [] then file else e ++ '/' :: file

/-- An outcome after what was done before it. -/
def StartOutcome.after (o : StartOutcome) (log : List ProcessEvent) : StartOutcome :=
  { o with log := log ++ o.log }

/-- The loop of `posix_spawnp` from its `n`-th attempt on. -/
def search (args : StartArgs) : ℕ → Bool → List Text → Children → StartOutcome
  | _, seenEacces, [], t => ⟨.error (if seenEacces then .eacces else .enoent), t, []⟩
  | n, seenEacces, name :: names, t =>
    let o := spawnCommon w env n false args (some name) t
    match o.answer with
    | .ok _ => o
    | .error .eacces => (search args (n + 1) true names o.table).after o.log
    | .error .enoent | .error .enotdir => (search args (n + 1) seenEacces names o.table).after o.log
    | .error _ => o

/-- A call that starts a program. -/
inductive StartCall where
  | spawn (args : StartArgs) (path : Option Text)
  | spawnp (args : StartArgs) (file : Option Text)
  /-- The start inside `execve`, which a place for the identifier and no attributes go with. -/
  | execve (argv envp : List Text) (path : Option Text)

/-- `__posix_spawnp`. -/
def posixSpawnp (args : StartArgs) (file : Option Text) (t : Children) : StartOutcome :=
  if args.res = false then ⟨.error .einval, t, []⟩
  else match file with
    | none => ⟨.error .einval, t, []⟩
    | some file =>
      if file = [] then ⟨.error .enoent, t, []⟩
      else if '/' ∈ file then spawnCommon w env 0 false args (some file) t
      else if nameMax < file.length then ⟨.error .enametoolong, t, []⟩
      else search w env args 0 false (candidates (env.path.getD defaultPath) file) t

def StartCall.outcome (t : Children) : StartCall → StartOutcome
  | .spawn args path => spawnCommon w env 0 false args path t
  | .spawnp args file => posixSpawnp w env args file t
  | .execve argv envp path => spawnCommon w env 0 true ⟨true, none, argv, envp, []⟩ path t

/-! ## When a call comes to a start -/

/-- The environment starts the program that the `n`-th attempt asks for. -/
def Starts (n : ℕ) (bound : Bool) (args : StartArgs) (name : Option Text) : Prop :=
  ∃ child, attempt w env n bound args name = .ok child

/-- One of the attempts of a search starts a program: those before it said something of their
entries alone. -/
def SearchStarts (args : StartArgs) : ℕ → List Text → Prop
  | _, [] => False
  | n, name :: names =>
    Starts w env n false args (some name) ∨
      (∃ e ∈ [Errno.eacces, .enoent, .enotdir], attempt w env n false args (some name) = .error e) ∧
        SearchStarts args (n + 1) names

/-- The call starts a program. -/
def StartCall.Starts : StartCall → Prop
  | .spawn args path => OpenkalMusl.Starts w env 0 false args path
  | .spawnp args file =>
    args.res = true ∧ ∃ name, file = some name ∧ name ≠ [] ∧
      if '/' ∈ name then OpenkalMusl.Starts w env 0 false args file
      else name.length ≤ nameMax ∧
        SearchStarts w env args 0 (candidates (env.path.getD defaultPath) name)
  | .execve argv envp path => OpenkalMusl.Starts w env 0 true ⟨true, none, argv, envp, []⟩ path

end Calls

section Outcomes

variable {w : PortState} {env : StartEnv} {n : ℕ} {bound : Bool} {args : StartArgs}
  {name : Option Text} {t : Children}

/-- An outcome is as the caller is told: an error means that no program was started. -/
def StartOutcome.Told (o : StartOutcome) : Prop := (∃ e, o.answer = .error e) → running o.log = []

theorem told_spawnCommon_iff :
    (spawnCommon w env n bound args name t).Told ↔ ¬ (t.Full ∧ Starts w env n bound args name) := by
  unfold StartOutcome.Told spawnCommon Starts
  cases hatt : attempt w env n bound args name with
  | error e => simp [running]
  | ok child =>
    obtain ⟨h, j⟩ := child
    simp only
    cases hrec : t.recordJob (env.ident h) h j with
    | none =>
      rw [Children.recordJob_eq_none_iff] at hrec
      simp [hrec, running, ProcessEvent.starts]
    | some r =>
      have hroom : ¬ t.Full := by
        intro hfull
        rw [Children.recordJob_eq_none_iff.mpr hfull] at hrec
        cases hrec
      simp [hroom]

/-- An attempt that is answered for its entry alone did nothing. -/
theorem spawnCommon_of_error {e : Errno}
    (h : (spawnCommon w env n bound args name t).answer = .error e)
    (he : e ≠ .eagain) :
    attempt w env n bound args name = .error e ∧ spawnCommon w env n bound args name t =
      ⟨.error e, t, []⟩ := by
  unfold spawnCommon at h ⊢
  cases hatt : attempt w env n bound args name with
  | error e' =>
    rw [hatt] at h
    obtain rfl := Except.error.inj h
    exact ⟨rfl, rfl⟩
  | ok child =>
    exfalso
    rw [hatt] at h
    obtain ⟨x, j⟩ := child
    simp only at h
    cases hrec : t.recordJob (env.ident x) x j with
    | none =>
      rw [hrec] at h
      exact he (Except.error.inj h).symm
    | some r =>
      rw [hrec] at h
      cases h

/-- One attempt of a search: it goes on after an answer for the entry alone, and ends otherwise. -/
theorem search_cons (seen : Bool) (name : Text) (names : List Text) :
    (∃ e ∈ [Errno.eacces, .enoent, .enotdir], attempt w env n false args (some name) = .error e ∧
        ∃ seen', search w env args n seen (name :: names) t =
          search w env args (n + 1) seen' names t) ∨
      (¬ ∃ e ∈ [Errno.eacces, .enoent, .enotdir],
          attempt w env n false args (some name) = .error e) ∧
        search w env args n seen (name :: names) t = spawnCommon w env n false args
          (some name) t := by
  -- an attempt with such an answer leaves nothing behind
  have hskip : ∀ {e : Errno} {seen'},
    (spawnCommon w env n false args (some name) t).answer = .error e →
      e ≠ .eagain → attempt w env n false args (some name) = .error e ∧
        (search w env args (n + 1) seen' names
            (spawnCommon w env n false args (some name) t).table).after
          (spawnCommon w env n false args (some name) t).log =
          search w env args (n + 1) seen' names t := by
    intro e seen' ha he
    obtain ⟨hatt, heq⟩ := spawnCommon_of_error ha he
    rw [heq]
    exact ⟨hatt, rfl⟩
  simp only [search]
  split
  · rename_i pid ha
    refine Or.inr ⟨?_, rfl⟩
    rintro ⟨e, -, hatt⟩
    unfold spawnCommon at ha
    rw [hatt] at ha
    cases ha
  · rename_i ha
    obtain ⟨hatt, heq⟩ := hskip ha nofun
    exact Or.inl ⟨.eacces, by decide, hatt, true, heq⟩
  · rename_i ha
    obtain ⟨hatt, heq⟩ := hskip ha nofun
    exact Or.inl ⟨.enoent, by decide, hatt, seen, heq⟩
  · rename_i ha
    obtain ⟨hatt, heq⟩ := hskip ha nofun
    exact Or.inl ⟨.enotdir, by decide, hatt, seen, heq⟩
  · rename_i e hacces hnoent hnotdir ha
    refine Or.inr ⟨?_, rfl⟩
    rintro ⟨e', he', hatt⟩
    unfold spawnCommon at ha
    rw [hatt] at ha
    obtain rfl := Except.error.inj ha
    simp only [List.mem_cons, List.not_mem_nil, or_false] at he'
    rcases he' with rfl | rfl | rfl
    · exact hacces rfl
    · exact hnoent rfl
    · exact hnotdir rfl

/-- **A search tells its caller** what its attempts do. -/
theorem told_search_iff (seen : Bool) (names : List Text) :
    (search w env args n seen names t).Told ↔ ¬ (t.Full ∧ SearchStarts w env args n names) := by
  induction names generalizing n seen with
  | nil =>
    refine ⟨fun _ h => h.2, fun _ _ => rfl⟩
  | cons name names ih =>
    simp only [SearchStarts]
    rcases search_cons (t := t) seen name names with ⟨e, he, hatt, seen', heq⟩ | ⟨hno, heq⟩
    · rw [heq, ih seen']
      have hstart : ¬ Starts w env n false args (some name) := by
        rintro ⟨child, hchild⟩
        rw [hatt] at hchild
        cases hchild
      have hrest : (∃ e ∈ [Errno.eacces, .enoent, .enotdir],
          attempt w env n false args (some name) = .error e) := ⟨e, he, hatt⟩
      rw [or_iff_right hstart, and_iff_right hrest]
    · rw [heq, told_spawnCommon_iff, or_iff_left fun h => hno h.1]

end Outcomes

/-- **An error means that no program was started**, exactly where the table of children has an entry
for the program that a call starts. -/
theorem nothing_started_iff (w : PortState) (env : StartEnv) (t : Children) (c : StartCall) :
    ((∃ e, (c.outcome w env t).answer = .error e) → running (c.outcome w env t).log = []) ↔
      ¬ (t.Full ∧ c.Starts w env) := by
  show (c.outcome w env t).Told ↔ _
  cases c with
  | spawn args path => exact told_spawnCommon_iff
  | execve argv envp path => exact told_spawnCommon_iff
  | spawnp args file =>
    simp only [StartCall.outcome, StartCall.Starts, posixSpawnp]
    have hnothing : ∀ e : Errno, (⟨.error e, t, []⟩ : StartOutcome).Told := fun _ _ => rfl
    by_cases hres : args.res = false
    · simp [hres, hnothing]
    · rw [if_neg hres]
      cases file with
      | none => simp [hnothing]
      | some name =>
        simp only [hres, Option.some.injEq, exists_eq_left']
        by_cases hempty : name = []
        · simp [hempty, hnothing]
        · by_cases hslash : '/' ∈ name
          · simp [hempty, hslash, told_spawnCommon_iff]
          · by_cases hlong : nameMax < name.length
            · simp [hempty, hslash, hlong, hnothing, Nat.not_le.mpr hlong]
            · simp [hempty, hslash, hlong, Nat.not_lt.mp hlong, told_search_iff]

/-- A program makes one call after another, and waits for none of its children. -/
def startStep (w : PortState) (t : Children) (l : StartEnv × StartCall) : Option Children :=
  some (l.2.outcome w l.1 t).table

/-- An environment that starts whatever it is asked for, as the program `h`. -/
def StartEnv.starting (h : Handle) : StartEnv where
  spawn := fun _ => .granting
  props := .full
  start := fun _ _ _ => .ok (h, 0)
  ident := fun _ => none
  path := none

/-- A start of `/p`. -/
def StartCall.plain : StartCall := .spawn ⟨true, none, [], [], []⟩ (some ['/', 'p'])

theorem attempt_plain (h : Handle) :
    attempt (.okmTableInit 1 .supplied) (.starting h) 0 false ⟨true, none, [], [], []⟩
      (some ['/', 'p']) = .ok (h, 0) := by
  have hspawn : ((PortState.okmTableInit 1 .supplied).okmSpawnCommon .granting
      ⟨true, some ['/', 'p'], none, [], []⟩ []).toOption.isSome = true := by decide +kernel
  obtain ⟨q, hq⟩ := Option.isSome_iff_exists.mp hspawn
  unfold attempt
  simp only [StartEnv.starting, eq_ok_of_toOption hq]

theorem outcome_plain (h : Handle) (t : Children) :
    StartCall.plain.outcome (.okmTableInit 1 .supplied) (.starting h) t =
      match t.recordJob none h 0 with
      | none => ⟨.error .eagain, t, [.started h, .released h]⟩
      | some (pid, u) => ⟨.ok pid, u, [.started h]⟩ := by
  have hident : (StartEnv.starting h).ident h = none := rfl
  unfold StartCall.plain
  simp only [StartCall.outcome, spawnCommon, attempt_plain, hident]

/-- Each start takes one entry more. -/
theorem fill (n : ℕ) (hn : n ≤ okmMaxChild) :
    ∃ t, Reachable (startStep (.okmTableInit 1 .supplied)) .empty t ∧
      ∀ i, (t.entry i).used = decide (i < n) := by
  induction n with
  | zero => exact ⟨.empty, Reachable.refl _ _, fun i => by simp [Children.empty]⟩
  | succ n ih =>
    obtain ⟨t, ht, hused⟩ := ih (Nat.le_of_succ_le hn)
    have hroom : ¬ t.Full := by
      intro hfull
      have hlast := hfull n (Nat.lt_of_succ_le hn)
      rw [hused n] at hlast
      simp at hlast
    obtain ⟨⟨i, u⟩, hres⟩ := Option.ne_none_iff_exists'.mp
      (mt Children.reserve_eq_none_iff.mp hroom)
    obtain ⟨-, hfree, hbefore, hu⟩ := Children.reserve_some hres
    obtain rfl : i = n := by
      rw [hused i, decide_eq_false_iff_not, Nat.not_lt] at hfree
      refine Nat.le_antisymm (Nat.not_lt.mp fun hlt => ?_) hfree
      have hlast := hbefore n hlt
      rw [hused n] at hlast
      simp at hlast
    refine ⟨_, ht.tail (.starting (2000 + i), .plain) rfl, fun k => ?_⟩
    have htable : (StartCall.plain.outcome (.okmTableInit 1 .supplied)
        (.starting (2000 + i)) t).table =
        u.commit none i (2000 + i) := by
      rw [outcome_plain]
      simp only [Children.recordJob, hres, Option.map_some]
      rfl
    rw [htable, hu]
    by_cases hk : k = i
    · subst hk
      simp [Children.commit, Children.set]
    · have hlt : k < i ↔ k < i + 1 := by omega
      simp [Children.commit, Children.set, Function.update_of_ne hk, hused k, hlt]

/-- **An error for a program that runs**: after 256 starts the next is carried out, and then refused
an entry. -/
theorem started_and_refused :
    ∃ t, Reachable (startStep (.okmTableInit 1 .supplied)) .empty t ∧
      (StartCall.plain.outcome (.okmTableInit 1 .supplied) (.starting 3000) t).answer =
        .error .eagain ∧
      running (StartCall.plain.outcome (.okmTableInit 1 .supplied) (.starting 3000) t).log
        = [3000] := by
  obtain ⟨t, ht, hused⟩ := fill okmMaxChild le_rfl
  have hfull : t.Full := fun i hi => by rw [hused i, decide_eq_true hi]
  refine ⟨t, ht, ?_⟩
  rw [outcome_plain, Children.recordJob_eq_none_iff.mpr hfull]
  exact ⟨rfl, rfl⟩

end OpenkalMusl
