import OpenkalMusl.Descriptors.Ledger

/-!
# The working directory's handle

`okm_chdir`: the working directory is a handle of this library, and openkal has no operation that
moves a running program's. `chdir` opens the directory it is told; `fchdir` opens the directory of
its descriptor through itself, and takes the descriptor's own handle where that fails. Neither
closes the handle that the working directory had before, and a name that cannot be formed after the
directory was opened leaves its handle with nobody.

Each directory handle has one owner, or has been closed once, as long as the working directory has
no handle of its own when it is changed, and neither of the two failures happens.

## Main definitions

* `PortState.okmChdir`: the call
* `Dirs.step`: `chdir`, `fchdir`, `openat` and `close`, with the directory handles they obtain and
  close
* `Dirs.Owns`: every directory handle has one owner
* `Dirs.Keeps`: the calls that keep it so

## Main results

* `effect_close`, `grows_openat`: what `close` and `openat` do to the directory handles
* `owned_while_kept`: the handles have one owner in every run of calls that keep it so
* `chdir_twice_leaks`: a run in which a handle has no owner
-/

namespace OpenkalMusl

open Transition PortState

namespace PortState

/-- The working directory becomes `target`, under its name. -/
def setCwd (w : PortState) (target : Handle) (abs : Text) : PortState :=
  let cwd := (copyStr abs abs.length okmMaxPath).1
  { w with cwdDir := target, cwd := if cwd = [] then ['/'] else cwd }

/-- `okm_chdir`: of a path, or of a descriptor where there is none. -/
def okmChdir (w : PortState) (env : Env) (dirfd : Int) (path : Option Text) : Outcome :=
  match path with
  | some path =>
    match w.okmResolve dirfd (some path) false with
    | .error e => w.fail e
    | .ok _ =>
      match env.openDir with
      | .error e => w.fail (okmErrno e)
      | .ok target =>
        match (if rootLength path ≠ 0 then join [] path okmMaxPath
            else join w.cwd path okmMaxPath) with
        | .error _ => ⟨w, .error .enametoolong, [.dir target]⟩
        | .ok abs => ⟨w.setCwd target abs, .ok 0, [.dir target]⟩
  | none =>
    match w.okmDescOf dirfd with
    | none => w.fail .enotdir
    | some d =>
      if (w.desc d).kind ≠ .dir then w.fail .enotdir
      else
        match w.dirName (w.desc d) with
        | none => w.fail .enomem
        | some name =>
          let abs := (copyStr name name.length okmMaxPath).1
          match env.openDir with
          | .ok own => ⟨w.setCwd own abs, .ok 0, [.dir own]⟩
          | .error _ => ⟨w.setCwd (w.desc d).dir abs, .ok 0, []⟩

end PortState

/-! ## The directory handles of a run of calls -/

/-- The handle of a directory. -/
def Resource.dirHandle : Resource → Option Handle
  | .dir h => some h
  | _ => none

/-- The table, with the directory handles obtained and closed. -/
abbrev Dirs := Ledger Handle

inductive DirCall where
  | chdir (env : Env) (path : Option Text)
  | fchdir (env : Env) (fd : Int)
  | openat (env : Env) (dirfd : Int) (path : Option Text) (flags : ℕ)
  | close (fd : Int)

namespace Dirs

/-- The state a call leaves. -/
def after (s : Dirs) (o : Outcome) : Dirs := Ledger.after Resource.dirHandle s o.port o.obtained

/-- What the environment may answer: a directory handle that is not the null handle and is not held,
and memory that is not the snapshot's. -/
def MayAnswer (s : Dirs) (env : Env) : Prop :=
  (∀ h ∈ env.openDir.toOption, h ≠ 0 ∧ h ∉ s.held) ∧
    ∀ a ∈ env.alloc, s.port.okmFromSnapshot a = false

instance (s : Dirs) (env : Env) : Decidable (MayAnswer s env) := inferInstanceAs (Decidable (_ ∧ _))

/-- One call. -/
def step (me : Context) (s : Dirs) : DirCall → Option Dirs
  | .chdir env path =>
    if MayAnswer s env then some (after s (s.port.okmChdir env atFdcwd path)) else none
  | .fchdir env fd =>
    if MayAnswer s env then some (after s (s.port.okmChdir env fd none)) else none
  | .openat env dirfd path flags =>
    if MayAnswer s env then some (after s (s.port.doOpenat me env dirfd path flags)) else none
  | .close fd => some (after s (s.port.doClose me fd))

/-- The table a program starts with: the supplied directories are held. -/
def start (me : Context) (init : Start) : Dirs where
  port := .okmTableInit me init
  hist := (PortState.okmTableInit me init).pre.map fun p => .got p.dir

/-- Who may own a directory handle. -/
inductive Owner where
  | desc (d : Fin okmMaxDesc)
  | cwd
  | supplied
  deriving DecidableEq

/-- The owner has the handle. The working directory does not own a supplied directory, and has the
null handle of static storage where it has none. -/
def Owner.Has (w : PortState) (h : Handle) : Owner → Prop
  | .desc d => (w.desc d).kind = .dir ∧ (w.desc d).dir = h
  | .cwd => w.cwdDir = h ∧ h ≠ 0 ∧ ∀ p ∈ w.pre, p.dir ≠ h
  | .supplied => ∃ p ∈ w.pre, p.dir = h

/-- Every directory handle that was obtained has one owner, or was closed and closed once; the
working directory's is not closed. -/
structure Owns (s : Dirs) : Prop where
  one : ∀ h ∈ s.held, ∃! o : Owner, o.Has s.port h
  once : Traffic.Once s.hist
  cwd : s.port.pre ≠ [] → s.port.cwdDir ∈ s.held

/-- The working directory has a handle of its own. -/
def CwdOwns (s : Dirs) : Prop := s.port.cwdDir ∈ s.held ∧ ∀ p ∈ s.port.pre, p.dir ≠ s.port.cwdDir

instance (s : Dirs) : Decidable (CwdOwns s) := inferInstanceAs (Decidable (_ ∧ _))

/-- A change of directory that obtains the directory does so where the working directory has no
handle of its own, and does not fail to form its name or to open the directory through itself. -/
def Keeps (s : Dirs) : DirCall → Prop
  | .chdir env (some path) =>
    (s.port.okmResolve atFdcwd (some path) false).toOption.isSome → env.openDir.toOption.isSome →
      (if rootLength path ≠ 0 then join [] path okmMaxPath
        else join s.port.cwd path okmMaxPath).toOption.isSome ∧ ¬ CwdOwns s
  | .fchdir env fd =>
    ∀ d ∈ s.port.okmDescOf fd, (s.port.desc d).kind = .dir →
      (s.port.dirName (s.port.desc d)).isSome → env.openDir.toOption.isSome ∧ ¬ CwdOwns s
  | _ => True

instance (s : Dirs) (l : DirCall) : Decidable (Keeps s l) := by
  unfold Keeps
  split <;> infer_instance

end Dirs

/-! ## What the calls do to the directory handles -/

/-- The directory handle a description owns. -/
def Desc.dirHeld (p : Desc) : Option Handle := if p.kind = .dir then some p.dir else none

namespace PortState

theorem keepName_frame (w : PortState) (slot : Fin okmMaxDirs) (abs : Text) (alloc : Option ℕ) :
    (w.keepName slot abs alloc).pre = w.pre ∧ (w.keepName slot abs alloc).cwdDir = w.cwdDir := by
  have hclear : (w.pathSlotClear slot).pre = w.pre ∧ (w.pathSlotClear slot).cwdDir = w.cwdDir := by
    unfold pathSlotClear okmKalFree
    cases w.dirlong slot with
    | none => exact ⟨rfl, rfl⟩
    | some l =>
      simp only
      split_ifs <;> exact ⟨rfl, rfl⟩
  unfold keepName writeName
  split_ifs
  · exact hclear
  · cases alloc <;> exact hclear

theorem okmDirRemember_frame (w : PortState) (fd : Int) (abs : Text) (alloc : Option ℕ) :
    (w.okmDirRemember fd abs alloc).pre = w.pre ∧
      (w.okmDirRemember fd abs alloc).cwdDir = w.cwdDir := by
  rcases w.okmDirRemember_cases fd abs alloc with
    he | ⟨d, -, ⟨slot, -, he⟩ | ⟨-, he | ⟨slot, -, he⟩⟩⟩
  · rw [he]
    exact ⟨rfl, rfl⟩
  · rw [he]
    exact keepName_frame w slot abs alloc
  · rw [he]
    exact ⟨rfl, rfl⟩
  · rw [he]
    exact keepName_frame _ slot abs alloc

end PortState

namespace Dirs

theorem has_desc_iff {w : PortState} {d : Fin okmMaxDesc} {h : Handle} :
    (Owner.desc d).Has w h ↔ (w.desc d).dirHeld = some h := by
  simp only [Owner.Has, Desc.dirHeld]
  by_cases hk : (w.desc d).kind = .dir <;> simp [hk]

/-- What a call can do to the owners of the directory handles. -/
inductive Change (s t : Dirs) : Prop
  | still (at_ : ∀ d, (t.port.desc d).dirHeld = (s.port.desc d).dirHeld)
    (cwd : t.port.cwdDir = s.port.cwdDir) (hist : t.hist = s.hist)
  | opened (d : Fin okmMaxDesc) (h : Handle) (fresh : h ≠ 0 ∧ h ∉ s.held)
    (free : (s.port.desc d).dirHeld = none)
    (at_ : ∀ e, (t.port.desc e).dirHeld = if e = d then some h else (s.port.desc e).dirHeld)
    (cwd : t.port.cwdDir = s.port.cwdDir) (hist : t.hist = s.hist ++ [.got h])
  | refused (h : Handle) (fresh : h ≠ 0 ∧ h ∉ s.held)
    (at_ : ∀ d, (t.port.desc d).dirHeld = (s.port.desc d).dirHeld)
    (cwd : t.port.cwdDir = s.port.cwdDir) (hist : t.hist = s.hist ++ [.got h] ++ [.gave h])
  | closed (d : Fin okmMaxDesc) (h : Handle) (had : (s.port.desc d).dirHeld = some h)
    (at_ : ∀ e, (t.port.desc e).dirHeld = if e = d then none else (s.port.desc e).dirHeld)
    (cwd : t.port.cwdDir = s.port.cwdDir) (hist : t.hist = s.hist ++ [.gave h])
  | moved (h : Handle) (fresh : h ≠ 0 ∧ h ∉ s.held) (lone : ¬ CwdOwns s)
    (at_ : ∀ d, (t.port.desc d).dirHeld = (s.port.desc d).dirHeld)
    (cwd : t.port.cwdDir = h) (hist : t.hist = s.hist ++ [.got h])

/-- The table between two calls. -/
structure Tidy (w : PortState) : Prop where
  exact : w.Exact
  settled : w.settling = []

/-- A call: what it does to the owners, with the supplied directories as they were. -/
structure Effect (s t : Dirs) : Prop where
  pre : t.port.pre = s.port.pre
  tidy : Tidy t.port
  change : Change s t

/-- A call that closes no directory that was held before it. -/
structure Grows (s t : Dirs) : Prop extends Effect s t where
  held : s.held ⊆ t.held

theorem hist_after {s : Dirs} {o : Outcome} (es : List Event) (h : o.port.log = s.port.log ++ es) :
    (after s o).hist = s.hist ++ (o.obtained.filterMap Resource.dirHandle).map .got ++
      ((es.filterMap Event.released).filterMap Resource.dirHandle).map .gave :=
  Ledger.after_of_log h _

/-- A call that leaves the table as it was, but for handles other than directories' given back. -/
theorem grows_still {s : Dirs} {o : Outcome} (es : List Event) (ht : Tidy o.port)
    (hpre : o.port.pre = s.port.pre) (hat : ∀ d, (o.port.desc d).dirHeld = (s.port.desc d).dirHeld)
    (hcwd : o.port.cwdDir = s.port.cwdDir) (hlog : o.port.log = s.port.log ++ es)
    (hes : (es.filterMap Event.released).filterMap Resource.dirHandle = [])
    (hobt : o.obtained.filterMap Resource.dirHandle = []) : Grows s (after s o) := by
  have hhist : (after s o).hist = s.hist := by
    rw [hist_after es hlog, hes, hobt, List.map_nil, List.map_nil, List.append_nil, List.append_nil]
  exact ⟨⟨hpre, ht, .still hat hcwd hhist⟩, (congrArg Traffic.holding hhist).ge⟩

theorem grows_fail {s : Dirs} (ht : Tidy s.port) (e : Errno) : Grows s (after s (s.port.fail e)) :=
  grows_still [] ht rfl (fun _ => rfl) rfl (List.append_nil _).symm rfl rfl

/-- The table after a description that was free is bound. -/
theorem tidy_bound {w : PortState} (ht : Tidy w) (me : Context) {kind : Kind} (hk : kind ≠ .free)
    (stream file dir : Handle) (flags : ℕ) {v : PortState} {f : Fin okmMaxFd}
    (hv : w.bindNew me kind stream file dir flags = (v, .ok f)) (hset : v.settling = w.settling) :
    Tidy v := by
  refine ⟨?_, hset.trans ht.settled⟩
  have := (exact_rules me).bindNew hk stream file dir flags ht.exact
  rwa [hv] at this

theorem dirHeld_bound {w : PortState} {d : Fin okmMaxDesc} (kind : Kind)
    (stream file dir : Handle) (flags : ℕ) (e : Fin okmMaxDesc) :
    ((w.bindDesc d ((w.desc d).bind kind stream file dir flags)).desc e).dirHeld =
      if e = d then (if kind = .dir then some dir else none) else (w.desc e).dirHeld := by
  show ((Function.update w.desc d _) e).dirHeld = _
  by_cases he : e = d
  · subst he
    rw [Function.update_self, if_pos rfl]
    rfl
  · rw [Function.update_of_ne he, if_neg he]

/-- The null device and a file leave the directories alone. -/
theorem grows_bindNew {s : Dirs} (ht : Tidy s.port) (me : Context) (kind : Kind)
    (hfree : kind ≠ .free) (hdir : kind ≠ .dir) (stream file dir : Handle) (flags : ℕ)
    {o : Outcome} (hobt : o.obtained.filterMap Resource.dirHandle = [])
    (hok : ∀ v f, s.port.bindNew me kind stream file dir flags = (v, .ok f) → o.port = v.leave me)
    (herr : ∀ e, s.port.bindNew me kind stream file dir flags = (s.port, .error e) →
      ∃ es, o.port = { s.port with log := s.port.log ++ es } ∧
        (es.filterMap Event.released).filterMap Resource.dirHandle = []) :
    Grows s (after s o) := by
  rcases bindNew_cases ht.exact me kind stream file dir flags with ⟨e, he⟩ | ⟨f, d, hd, -, hb⟩
  · obtain ⟨es, hport, hes⟩ := herr e he
    refine grows_still es ?_ ?_ ?_ ?_ ?_ hes hobt <;> rw [hport]
    · exact ⟨ht.exact, ht.settled⟩
    · exact fun _ => rfl
  · have hv := tidy_bound ht me hfree stream file dir flags hb rfl
    have hport := (hok _ _ hb).trans (leave_of_settled hv.settled me)
    have hnone : (s.port.desc d).dirHeld = none := by
      rw [Desc.dirHeld, ht.exact.kind_descAlloc hd]
      rfl
    refine grows_still (o := o)
      [.bound d ((s.port.desc d).bind kind stream file dir flags).owned]
      ?_ ?_ ?_ ?_ ?_ rfl hobt <;> rw [hport]
    · exact hv
    · rfl
    · intro e
      have := dirHeld_bound (w := s.port) (d := d) kind stream file dir flags e
      rw [if_neg hdir] at this
      refine this.trans ?_
      split_ifs with he
      · rw [he, hnone]
      · rfl
    · rfl
    · rfl

/-- A bind of a directory that succeeds: the description is bound, and its name is recorded. -/
theorem bindDir_ok {w : PortState} (ht : Tidy w) {me : Context} {h : Handle} {flags : ℕ}
    {name : Option Text} {alloc : Option ℕ} (halloc : ∀ a ∈ alloc, w.okmFromSnapshot a = false)
    {v : PortState} {f : Fin okmMaxFd} (hv : w.bindDir me h flags name alloc = (v, .ok f)) :
    Tidy v ∧ v.pre = w.pre ∧ v.cwdDir = w.cwdDir ∧
      (∃ d, (w.desc d).dirHeld = none ∧
        ∀ e, (v.desc e).dirHeld = if e = d then some h else (w.desc e).dirHeld) ∧
      ∃ es, v.log = w.log ++ es ∧ es.filterMap Event.released = [] := by
  have hexact : v.Exact := by
    have := (exact_rules me).bindDir h flags name halloc ht.exact
    rwa [hv] at this
  unfold bindDir at hv
  rcases bindNew_cases ht.exact me .dir 0 0 h flags with ⟨e, he⟩ | ⟨g, d, hd, -, hb⟩
  · rw [he] at hv
    cases hv
  · have hnone : (w.desc d).dirHeld = none := by
      rw [Desc.dirHeld, ht.exact.kind_descAlloc hd]
      rfl
    have hat := dirHeld_bound (w := w) (d := d) .dir 0 0 h flags
    rw [hb] at hv
    -- the table as it was bound: the name changes no description but in its slot
    generalize hu : (w.bindDesc d ((w.desc d).bind .dir 0 0 h flags)).setFd g
      ⟨some d, hasFlag flags oCloexec⟩ = u at hv
    have hset : u.settling = [] := by rw [← hu]; exact ht.settled
    have hlog : u.log = w.log ++ [.bound d (some (.dir h))] := by rw [← hu]; rfl
    have hpre : u.pre = w.pre := by rw [← hu]; rfl
    have hcwd : u.cwdDir = w.cwdDir := by rw [← hu]; rfl
    have hdesc : ∀ e, (u.desc e).dirHeld = if e = d then some h else (w.desc e).dirHeld := by
      rw [← hu]
      exact hat
    cases name with
    | none =>
      obtain ⟨rfl, -⟩ := Prod.mk.inj hv
      exact ⟨⟨hexact, hset⟩, hpre, hcwd, ⟨d, hnone, hdesc⟩,
        [.bound d (some (.dir h))], hlog, rfl⟩
    | some abs =>
      obtain ⟨rfl, -⟩ := Prod.mk.inj hv
      obtain ⟨es, hes, hnaming⟩ := okmDirRemember_naming u g.val abs alloc
      obtain ⟨hframe, hframe'⟩ := okmDirRemember_frame u g.val abs alloc
      have hsettled := (okmDirRemember_settling u g.val abs alloc).trans hset
      refine ⟨⟨hexact, hsettled⟩, hframe.trans hpre,
        hframe'.trans hcwd, ⟨d, hnone, fun e => ?_⟩,
        [.bound d (some (.dir h))] ++ es, ?_, ?_⟩
      · obtain ⟨slot, hslot⟩ := okmDirRemember_desc u g.val abs alloc e
        rw [hslot, ← hdesc e]
        rfl
      · rw [hes, hlog, List.append_assoc]
      · rw [List.filterMap_append, filterMap_released_naming hnaming]
        rfl

theorem bindDir_cases (w : PortState) (me : Context) (h : Handle) (flags : ℕ)
    (name : Option Text) (alloc : Option ℕ) :
    (∃ e, w.bindDir me h flags name alloc = (w, .error e)) ∨
      ∃ v f, w.bindDir me h flags name alloc = (v, .ok f) := by
  have herr : ∀ e, (w.bindDir me h flags name alloc).2 = .error e →
      (w.bindDir me h flags name alloc).1 = w := fun _ => bindDir_error
  generalize w.bindDir me h flags name alloc = r at herr ⊢
  obtain ⟨v, e | f⟩ := r
  · exact Or.inl ⟨e, congrArg (·, _) (herr e rfl)⟩
  · exact Or.inr ⟨v, f, rfl⟩

theorem grows_openatDir {s : Dirs} (ht : Tidy s.port) {env : Env} (henv : MayAnswer s env)
    (me : Context) (dirfd : Int) (path : Option Text) (flags : ℕ) :
    Grows s (after s (s.port.openatDir me env dirfd path flags)) := by
  unfold openatDir
  cases ho : env.openDir with
  | error e => exact grows_fail ht _
  | ok h =>
    have fresh := henv.1 h (by rw [ho]; rfl)
    simp only
    generalize (s.port.okmAbsolute dirfd path okmMaxPath).toOption = name
    rcases bindDir_cases s.port me h flags name env.alloc with ⟨e, he⟩ | ⟨v, f, hv⟩
    · -- no descriptor: the handle is closed again
      rw [he]
      have hport : (finish (s.port, .error e) me (.dir h)).port =
          s.port.record (.returned me (.dir h)) := by
        rw [finish, leave_of_settled ht.settled]
      have hhist : (after s (finish (s.port, .error e) me (.dir h))).hist =
          s.hist ++ [.got h] ++ [.gave h] := by
        rw [hist_after [.returned me (.dir h)] (congrArg PortState.log hport)]
        rfl
      refine ⟨⟨(congrArg PortState.pre hport).trans rfl, ?_, .refused h fresh (fun d => ?_)
        ((congrArg PortState.cwdDir hport).trans rfl) hhist⟩, ?_⟩
      · show Tidy (finish (s.port, .error e) me (.dir h)).port
        rw [hport]
        exact ⟨ht.exact, ht.settled⟩
      · exact congrArg (fun w => (w.desc d).dirHeld) hport
      · intro x hx
        rw [Ledger.held, hhist, Traffic.holding_gave, Traffic.holding_got]
        exact Finset.mem_erase.mpr
          ⟨fun hxh => fresh.2 (hxh ▸ hx), Finset.mem_insert_of_mem hx⟩
    · obtain ⟨htv, hpre, hcwd, ⟨d, hnone, hat⟩, es, hlog, hes⟩ := bindDir_ok ht henv.2 hv
      rw [hv]
      have hport : (finish (v, .ok f) me (.dir h)).port = v := by
        rw [finish, leave_of_settled htv.settled]
      have hhist : (after s (finish (v, .ok f) me (.dir h))).hist = s.hist ++ [.got h] := by
        rw [hist_after es (by rw [hport, hlog]), hes]
        simp [finish, Resource.dirHandle]
      refine ⟨⟨?_, ?_, .opened d h fresh hnone (fun e => ?_) ?_ hhist⟩, ?_⟩
      · exact (congrArg PortState.pre hport).trans hpre
      · show Tidy (finish (v, .ok f) me (.dir h)).port
        rw [hport]
        exact htv
      · exact (congrArg (fun w => (w.desc e).dirHeld) hport).trans (hat e)
      · exact (congrArg PortState.cwdDir hport).trans hcwd
      · intro x hx
        rw [Ledger.held, hhist, Traffic.holding_got]
        exact Finset.mem_insert_of_mem hx

/-- **`openat`.** -/
theorem grows_openat {s : Dirs} (ht : Tidy s.port) {env : Env} (henv : MayAnswer s env)
    (me : Context) (dirfd : Int) (path : Option Text) (flags : ℕ) :
    Grows s (after s (s.port.doOpenat me env dirfd path flags)) := by
  have hdir := grows_openatDir ht henv me dirfd path flags
  unfold doOpenat
  split
  · split_ifs
    · exact grows_fail ht _
    · exact grows_fail ht _
    · -- the null device
      refine grows_bindNew ht me .null nofun nofun 0 0 0 flags rfl ?_ ?_
      · intro v f hv
        rw [hv]
        rfl
      · intro e he
        rw [he]
        refine ⟨[], ?_, rfl⟩
        rw [List.append_nil]
        exact leave_of_settled ht.settled me
  · cases s.port.okmResolve dirfd path false with
    | error e => exact grows_fail ht _
    | ok at_ =>
      simp only
      split_ifs
      · exact grows_fail ht _
      · exact hdir
      · split
        · rename_i f _
          refine grows_bindNew ht me .file nofun nofun env.fileStream f 0 flags ?_ ?_ ?_
          · rw [finish.eq_def]
            split <;> rfl
          · intro v g hv
            rw [hv]
            rfl
          · intro e he
            rw [he]
            refine ⟨[.returned me (.file f)], ?_, rfl⟩
            rw [finish, leave_of_settled ht.settled]
            rfl
        · exact hdir
        · exact grows_fail ht _

theorem gives_dirs (w : PortState) (p : Desc) :
    (w.gives p).filterMap Resource.dirHandle = p.dirHeld.toList := by
  unfold gives Desc.dirHeld
  cases p.kind with
  | dir => rfl
  | socket =>
    cases p.sock with
    | none => rfl
    | some slot =>
      simp only [Option.elim, Sock.holds]
      cases (w.sock slot).state <;> cases (w.sock slot).pendConn <;> rfl
  | free => rfl
  | stream => rfl
  | channel => rfl
  | file => rfl
  | null => rfl

/-- **`close`.** -/
theorem effect_close {s : Dirs} (ht : Tidy s.port) (me : Context) (fd : Int) :
    Effect s (after s (s.port.doClose me fd)) := by
  have hobt : (s.port.doClose me fd).obtained = [] := by
    unfold doClose
    cases s.port.okmDescOf fd <;> rfl
  have hexact : (s.port.doClose me fd).port.Exact := by
    unfold doClose
    cases s.port.okmDescOf fd with
    | none => exact ht.exact
    | some d => exact exact_leave (exact_okmFdRelease ht.exact me fd) me
  rcases s.port.doClose_cases me fd with hport | ⟨f, d, -, hport⟩
  · refine (grows_still [] ⟨hexact, ?_⟩ ?_ ?_ ?_ ?_ rfl (by rw [hobt]; rfl)).toEffect <;> rw [hport]
    · exact ht.settled
    · exact fun _ => rfl
    · rw [List.append_nil]
  · have hset : (s.port.setFd f {}).settling = [] := ht.settled
    rcases leave_descRelease_cases hset me d with ⟨-, hshared⟩ | ⟨-, hempty⟩
    · -- another descriptor names the description still
      rw [hshared] at hport
      refine (grows_still [] ⟨hexact, ?_⟩ ?_ ?_ ?_ ?_ rfl (by rw [hobt]; rfl)).toEffect <;>
        rw [hport]
      · exact ht.settled
      · rfl
      · intro e
        rw [setDesc_desc]
        by_cases he : e = d
        · subst he
          rw [Function.update_self]
          rfl
        · rw [Function.update_of_ne he]
          rfl
      · rfl
      · rw [List.append_nil]
        rfl
    · rw [← hport] at hempty
      obtain ⟨es, hlog, hes⟩ := hempty.log
      have hdirs : (es.filterMap Event.released).filterMap Resource.dirHandle =
          (s.port.desc d).dirHeld.toList := by
        rw [hes]
        exact gives_dirs _ _
      have hat : ∀ e, ((s.port.doClose me fd).port.desc e).dirHeld =
          if e = d then none else (s.port.desc e).dirHeld := by
        intro e
        rw [hempty.desc]
        by_cases he : e = d
        · subst he
          rw [Function.update_self, if_pos rfl]
          rfl
        · rw [Function.update_of_ne he, if_neg he]
          rfl
      cases hd : (s.port.desc d).dirHeld with
      | none =>
        refine (grows_still es ⟨hexact, hempty.settling⟩ hempty.pre (fun e => ?_) hempty.cwdDir hlog
          (by rw [hdirs, hd]; rfl) (by rw [hobt]; rfl)).toEffect
        rw [hat e]
        split_ifs with he
        · rw [he, hd]
        · rfl
      | some h =>
        refine ⟨hempty.pre, ⟨hexact, hempty.settling⟩, .closed d h hd hat hempty.cwdDir ?_⟩
        rw [hist_after es hlog, hdirs, hd, hobt]
        simp

/-- The working directory is changed to a directory that was obtained. -/
theorem effect_moved {s : Dirs} (ht : Tidy s.port) {h : Handle} (fresh : h ≠ 0 ∧ h ∉ s.held)
    (lone : ¬ CwdOwns s) (abs : Text) :
    Effect s (after s ⟨s.port.setCwd h abs, .ok 0, [.dir h]⟩) := by
  refine ⟨rfl, ⟨ht.exact, ht.settled⟩, .moved h fresh lone (fun _ => rfl) rfl ?_⟩
  rw [hist_after [] (List.append_nil _).symm]
  simp [Resource.dirHandle]

/-- **`chdir`.** -/
theorem effect_chdir {s : Dirs} (ht : Tidy s.port) {env : Env} (henv : MayAnswer s env)
    {path : Option Text} (hk : Keeps s (.chdir env path)) :
    Effect s (after s (s.port.okmChdir env atFdcwd path)) := by
  unfold okmChdir
  cases path with
  | none => exact (grows_fail ht _).toEffect
  | some path =>
    simp only [Keeps] at hk
    simp only
    cases hr : s.port.okmResolve atFdcwd (some path) false with
    | error e => exact (grows_fail ht _).toEffect
    | ok at_ =>
      cases ho : env.openDir with
      | error e => exact (grows_fail ht _).toEffect
      | ok target =>
        rw [hr, ho] at hk
        obtain ⟨hjoin, lone⟩ := hk rfl rfl
        simp only
        cases hj : (if rootLength path ≠ 0 then join [] path okmMaxPath
            else join s.port.cwd path okmMaxPath) with
        | error e =>
          rw [hj] at hjoin
          cases hjoin
        | ok abs => exact effect_moved ht (henv.1 target (by rw [ho]; rfl)) lone abs

/-- **`fchdir`.** -/
theorem effect_fchdir {s : Dirs} (ht : Tidy s.port) {env : Env} (henv : MayAnswer s env) {fd : Int}
    (hk : Keeps s (.fchdir env fd)) : Effect s (after s (s.port.okmChdir env fd none)) := by
  unfold okmChdir
  simp only
  simp only [Keeps] at hk
  cases hd : s.port.okmDescOf fd with
  | none => exact (grows_fail ht _).toEffect
  | some d =>
    by_cases hkind : (s.port.desc d).kind = .dir
    · have hk' := hk d hd hkind
      simp only [ne_eq, hkind, not_true_eq_false, if_false]
      cases hn : s.port.dirName (s.port.desc d) with
      | none => exact (grows_fail ht _).toEffect
      | some name =>
        rw [hn] at hk'
        obtain ⟨hopen, lone⟩ := hk' rfl
        cases ho : env.openDir with
        | error e =>
          rw [ho] at hopen
          cases hopen
        | ok own => exact effect_moved ht (henv.1 own (by rw [ho]; rfl)) lone _
    · simp only [ne_eq, hkind, not_false_eq_true, if_true]
      exact (grows_fail ht _).toEffect

/-! ## One owner in every run -/

/-- The invariant: what is held has one owner, and the working directory's handle is held where
there is one. -/
structure Inv (s : Dirs) : Prop where
  tidy : Tidy s.port
  owned : Owned (fun o h => Owner.Has s.port h o) s.hist
  cwd : s.port.cwdDir ∈ s.held ∨ s.port.pre = [] ∧ s.port.cwdDir = 0
  nonzero : ∀ h ∈ s.held, h ≠ 0 ∨ ∃ p ∈ s.port.pre, p.dir = h

theorem Inv.owns {s : Dirs} (h : Inv s) : Owns s where
  one := h.owned.one
  once := h.owned.once
  cwd := fun hpre => h.cwd.resolve_right fun hnone => hpre hnone.1

/-- Without a handle of its own the working directory owns nothing. -/
theorem Inv.cwd_owns_nothing {s : Dirs} (h : Inv s) (lone : ¬ CwdOwns s) (x : Handle) :
    ¬ Owner.cwd.Has s.port x := by
  rintro ⟨rfl, hne, hpre⟩
  exact lone ⟨h.owned.held .cwd _ ⟨rfl, hne, hpre⟩, hpre⟩

/-- A handle that a description owns is not the working directory's. -/
theorem Inv.desc_ne_cwd {s : Dirs} (h : Inv s) {d : Fin okmMaxDesc} {x : Handle}
    (hd : (Owner.desc d).Has s.port x) : x ≠ s.port.cwdDir := by
  rintro rfl
  -- it is supplied, or not null: either way it would have a second owner
  rcases h.nonzero _ (h.owned.held _ _ hd) with hne | hsup
  · by_cases hpre : ∀ p ∈ s.port.pre, p.dir ≠ s.port.cwdDir
    · have := h.owned.unique hd (show Owner.cwd.Has s.port s.port.cwdDir from ⟨rfl, hne, hpre⟩)
      cases this
    · push Not at hpre
      have := h.owned.unique hd (show Owner.supplied.Has s.port s.port.cwdDir from hpre)
      cases this
  · have := h.owned.unique hd (show Owner.supplied.Has s.port s.port.cwdDir from hsup)
    cases this

/-- Who owns what after a call, where it owned no less before and the working directory is the
same. -/
theorem has_of_at {s t : Dirs} (hpre : t.port.pre = s.port.pre)
    (hcwd : t.port.cwdDir = s.port.cwdDir) {Q : Owner → Handle → Prop}
    (hdesc : ∀ d h, (t.port.desc d).dirHeld = some h ↔ Q (.desc d) h)
    (hother : ∀ o h, (∀ d, o ≠ .desc d) → (Q o h ↔ o.Has s.port h)) (o : Owner) (h : Handle) :
    o.Has t.port h ↔ Q o h := by
  cases o with
  | desc d => rw [has_desc_iff, hdesc]
  | cwd =>
    rw [hother .cwd h nofun]
    simp only [Owner.Has, hpre, hcwd]
  | supplied =>
    rw [hother .supplied h nofun]
    simp only [Owner.Has, hpre]

/-- **What one call keeps.** -/
theorem inv_effect {s t : Dirs} (h : Inv s) (he : Effect s t) : Inv t := by
  obtain ⟨hpre, htidy, hchange⟩ := he
  cases hchange with
  | still at_ cwd hist =>
    have hheld : t.held = s.held := congrArg Traffic.holding hist
    refine ⟨htidy, ?_, ?_, ?_⟩
    · rw [hist]
      refine h.owned.congr fun o x => ?_
      exact has_of_at (Q := fun o x => o.Has s.port x) hpre cwd
        (fun d x => by rw [at_, has_desc_iff]) (fun _ _ _ => Iff.rfl) o x
    · rw [hheld, cwd, hpre]
      exact h.cwd
    · rw [hheld, hpre]
      exact h.nonzero
  | opened d x fresh free at_ cwd hist =>
    have hheld : t.held = insert x s.held := by
      rw [Ledger.held, hist, Traffic.holding_got]
      rfl
    refine ⟨htidy, ?_, ?_, ?_⟩
    · rw [hist]
      refine h.owned.grant (o := .desc d) (a := x) fresh.2 fun o y => ?_
      refine has_of_at (Q := fun o y => o.Has s.port y ∨ o = .desc d ∧ y = x) hpre cwd
        (fun e y => ?_) (fun o y ho => ?_) o y
      · rw [at_ e, has_desc_iff]
        by_cases hed : e = d
        · subst hed
          rw [if_pos rfl, free]
          simp [eq_comm]
        · rw [if_neg hed]
          simp [hed]
      · simp [ho d]
    · rw [hheld, cwd, hpre]
      exact h.cwd.imp_left (Finset.mem_insert_of_mem ·)
    · intro y hy
      rw [hheld, Finset.mem_insert] at hy
      rw [hpre]
      rcases hy with rfl | hy
      · exact Or.inl fresh.1
      · exact h.nonzero y hy
  | refused x fresh at_ cwd hist =>
    have hheld : t.held = s.held := by
      rw [Ledger.held, hist, Traffic.holding_gave, Traffic.holding_got]
      exact Finset.erase_insert fresh.2
    refine ⟨htidy, ?_, ?_, ?_⟩
    · rw [hist]
      refine (h.owned.pass fresh.2).congr fun o y => ?_
      exact has_of_at (Q := fun o y => o.Has s.port y) hpre cwd
        (fun d x => by rw [at_, has_desc_iff]) (fun _ _ _ => Iff.rfl) o y
    · rw [hheld, cwd, hpre]
      exact h.cwd
    · rw [hheld, hpre]
      exact h.nonzero
  | closed d x had at_ cwd hist =>
    have hown : (Owner.desc d).Has s.port x := has_desc_iff.mpr had
    have hheld : t.held = s.held.erase x := by
      rw [Ledger.held, hist, Traffic.holding_gave]
      rfl
    refine ⟨htidy, ?_, ?_, ?_⟩
    · rw [hist]
      refine (h.owned.revoke (h.owned.held _ _ hown)).congr fun o y => ?_
      refine has_of_at (Q := fun o y => o.Has s.port y ∧ y ≠ x) hpre cwd
        (fun e y => ?_) (fun o y ho => ?_) o y
      · rw [at_ e, has_desc_iff]
        by_cases hed : e = d
        · subst hed
          rw [if_pos rfl, had]
          simp [eq_comm]
        · rw [if_neg hed]
          refine ⟨fun hy => ⟨hy, ?_⟩, fun hy => hy.1⟩
          rintro rfl
          have := h.owned.unique (has_desc_iff.mpr hy) hown
          simp [hed] at this
      · refine ⟨fun hy => hy.1, fun hy => ⟨hy, ?_⟩⟩
        rintro rfl
        exact ho d (h.owned.unique hy hown)
    · rw [hheld, cwd, hpre]
      exact h.cwd.imp_left fun hc => Finset.mem_erase.mpr ⟨(h.desc_ne_cwd hown).symm, hc⟩
    · intro y hy
      rw [hheld] at hy
      rw [hpre]
      exact h.nonzero y (Finset.mem_of_mem_erase hy)
  | moved x fresh lone at_ cwd hist =>
    have hheld : t.held = insert x s.held := by
      rw [Ledger.held, hist, Traffic.holding_got]
      rfl
    have hsup : ∀ p ∈ s.port.pre, p.dir ≠ x := fun p hp hpx =>
      fresh.2 (h.owned.held .supplied x ⟨p, hp, hpx⟩)
    refine ⟨htidy, ?_, ?_, ?_⟩
    · rw [hist]
      refine h.owned.grant (o := .cwd) (a := x) fresh.2 fun o y => ?_
      cases o with
      | desc d => simp [has_desc_iff, at_]
      | cwd =>
        have hnone := h.cwd_owns_nothing lone y
        simp only [hnone, true_and, false_or]
        simp only [Owner.Has, cwd, hpre]
        constructor
        · exact fun hy => hy.1.symm
        · rintro rfl
          exact ⟨rfl, fresh.1, hsup⟩
      | supplied => simp [Owner.Has, hpre]
    · rw [hheld, cwd]
      exact Or.inl (Finset.mem_insert_self _ _)
    · intro y hy
      rw [hheld, Finset.mem_insert] at hy
      rw [hpre]
      rcases hy with rfl | hy
      · exact Or.inl fresh.1
      · exact h.nonzero y hy

/-! ## The start -/

theorem start_dirHeld (me : Context) (init : Start) (d : Fin okmMaxDesc) :
    ((start me init).port.desc d).dirHeld = none := by
  have hstreams : ∀ d, (((okmTableInitMemory init).bindStreams me init.streams).desc d).dirHeld =
      none := by
    refine bindStreams_keeps (I := fun w => ∀ d, (w.desc d).dirHeld = none)
      (fun w d f t stream flags hw e => ?_) me init fun _ => rfl
    have := dirHeld_bound (w := w) (d := d) .stream stream 0 0 flags e
    refine this.trans ?_
    split_ifs with he
    · rename_i hk
      cases hk
    · rfl
    · exact hw e
  show ((okmTableInit me init).desc d).dirHeld = none
  unfold okmTableInit okmTableInitStreams
  generalize (okmTableInitMemory init).bindStreams me init.streams = v at hstreams ⊢
  cases takePreopens init.preopens <;> exact hstreams d

/-- The working directory at the start is the first supplied one, or none. -/
theorem start_cwd (me : Context) (init : Start) :
    (∃ p ∈ (start me init).port.pre, p.dir = (start me init).port.cwdDir) ∨
      (start me init).port.pre = [] ∧ (start me init).port.cwdDir = 0 := by
  have hnull : ((okmTableInitMemory init).bindStreams me init.streams).cwdDir = 0 :=
    bindStreams_keeps (I := fun w => w.cwdDir = 0) (fun _ _ _ _ _ _ hw => hw) me init rfl
  show (∃ p ∈ (okmTableInit me init).pre, _ = (okmTableInit me init).cwdDir) ∨
    (okmTableInit me init).pre = [] ∧ (okmTableInit me init).cwdDir = 0
  unfold okmTableInit okmTableInitStreams
  generalize (okmTableInitMemory init).bindStreams me init.streams = v at hnull ⊢
  cases takePreopens init.preopens with
  | nil => exact Or.inr ⟨rfl, hnull⟩
  | cons p rest => exact Or.inl ⟨p, List.mem_cons_self .., rfl⟩

theorem mem_holding_got (ps : List Preopen) (h : Handle) :
    h ∈ Traffic.holding (ps.map fun p => Traffic.got p.dir) ↔ ∃ p ∈ ps, p.dir = h := by
  have hiff : h ∈ Traffic.holding ([] ++ (ps.map Preopen.dir).map .got) ↔ _ :=
    Traffic.mem_holding_append_got
  simpa [Function.comp_def] using hiff

theorem once_got_all (ps : List Preopen) :
    Traffic.Once (ps.map fun p => Traffic.got p.dir) := by
  induction ps using List.reverseRecOn with
  | nil => exact History.always_nil _
  | append_singleton ps p ih =>
    rw [List.map_append, List.map_cons, List.map_nil]
    exact Traffic.once_got.mpr ih

theorem inv_start (me : Context) (init : Start) : Inv (start me init) := by
  have hheld : ∀ h, h ∈ (start me init).held ↔ ∃ p ∈ (start me init).port.pre, p.dir = h :=
    mem_holding_got _
  have hdesc : ∀ d h, ¬ (Owner.desc d).Has (start me init).port h := by
    intro d h hd
    rw [has_desc_iff, start_dirHeld] at hd
    cases hd
  -- the working directory is a supplied one, or the null handle
  have hcwd : ∀ h, ¬ Owner.cwd.Has (start me init).port h := by
    rintro h ⟨rfl, hne, hpre⟩
    rcases start_cwd me init with ⟨p, hp, hdir⟩ | ⟨-, hnull⟩
    · exact hpre p hp hdir
    · exact hne hnull
  refine ⟨⟨?_, okmTableInit_settling me init⟩, ⟨fun h hh => ?_, fun o h ho => ?_, ?_⟩, ?_, ?_⟩
  · exact System.exact_of_reachable (s := System.start me init) (Reachable.refl _ _)
  · refine ⟨.supplied, (hheld h).mp hh, fun o ho => ?_⟩
    cases o with
    | desc d => exact absurd ho (hdesc d h)
    | cwd => exact absurd ho (hcwd h)
    | supplied => rfl
  · cases o with
    | desc d => exact absurd ho (hdesc d h)
    | cwd => exact absurd ho (hcwd h)
    | supplied => exact (hheld h).mpr ho
  · exact once_got_all _
  · exact (start_cwd me init).imp_left (hheld _).mpr
  · exact fun h hh => Or.inr ((hheld h).mp hh)

theorem inv_step {me : Context} {s t : Dirs} {l : DirCall} (h : Inv s)
    (hl : restrict (step me) Keeps s l = some t) : Inv t := by
  obtain ⟨hk, hstep⟩ := restrict_eq_some.mp hl
  refine inv_effect h ?_
  cases l with
  | chdir env path =>
    simp only [step] at hstep
    split_ifs at hstep with henv
    cases hstep
    exact effect_chdir h.tidy henv hk
  | fchdir env fd =>
    simp only [step] at hstep
    split_ifs at hstep with henv
    cases hstep
    exact effect_fchdir h.tidy henv hk
  | openat env dirfd path flags =>
    simp only [step] at hstep
    split_ifs at hstep with henv
    cases hstep
    exact (grows_openat h.tidy henv me dirfd path flags).toEffect
  | close fd =>
    cases hstep
    exact effect_close h.tidy me fd

/-! ## The calls that leave a handle without an owner, or with two -/

/-- The state after the working directory took a handle that was obtained, or a description's. -/
def moved (s : Dirs) (x : Handle) (abs : Text) (got : List Resource) : Dirs :=
  after s ⟨s.port.setCwd x abs, .ok 0, got⟩

theorem held_moved (s : Dirs) (x : Handle) (abs : Text) (got : List Resource) :
    (moved s x abs got).held =
      Traffic.holding (s.hist ++ (got.filterMap Resource.dirHandle).map .got) := by
  have hhist : (moved s x abs got).hist =
      s.hist ++ (got.filterMap Resource.dirHandle).map .got := by
    rw [moved, hist_after [] (List.append_nil _).symm]
    simp
  rw [Ledger.held, hhist]

/-- A working directory that moves away from a handle of its own leaves it to nobody. -/
theorem Inv.not_owns_moved {s : Dirs} (h : Inv s) (hcwd : CwdOwns s) {x : Handle}
    (fresh : x ∉ s.held) (abs : Text) : ¬ Owns (moved s x abs [.dir x]) := by
  intro hown
  have hne : s.port.cwdDir ≠ 0 := by
    rcases h.nonzero _ hcwd.1 with hne | ⟨p, hp, hdir⟩
    · exact hne
    · exact absurd hdir (hcwd.2 p hp)
  have howner : Owner.cwd.Has s.port s.port.cwdDir := ⟨rfl, hne, hcwd.2⟩
  have hheld : s.port.cwdDir ∈ (moved s x abs [.dir x]).held := by
    rw [held_moved]
    exact (Traffic.holding_got s.hist x).symm ▸ Finset.mem_insert_of_mem hcwd.1
  obtain ⟨o, ho, -⟩ := hown.one _ hheld
  cases o with
  | desc d =>
    have := h.owned.unique howner (show (Owner.desc d).Has s.port s.port.cwdDir from ho)
    cases this
  | cwd =>
    have hx : x = s.port.cwdDir := ho.1
    exact fresh (hx ▸ hcwd.1)
  | supplied =>
    obtain ⟨p, hp, hdir⟩ := ho
    exact hcwd.2 p hp hdir

/-- A description's handle that the working directory takes has two owners. -/
theorem Inv.not_owns_shared {s : Dirs} (h : Inv s) {d : Fin okmMaxDesc}
    (hd : (s.port.desc d).kind = .dir) (abs : Text) :
    ¬ Owns (moved s (s.port.desc d).dir abs []) := by
  intro hown
  have howner : (Owner.desc d).Has s.port (s.port.desc d).dir := ⟨hd, rfl⟩
  have hheld := h.owned.held _ _ howner
  have hsup : ∀ p ∈ s.port.pre, p.dir ≠ (s.port.desc d).dir := by
    intro p hp hdir
    have := h.owned.unique howner
      (show Owner.supplied.Has s.port (s.port.desc d).dir from ⟨p, hp, hdir⟩)
    cases this
  have hne : (s.port.desc d).dir ≠ 0 := by
    rcases h.nonzero _ hheld with hne | ⟨p, hp, hdir⟩
    · exact hne
    · exact absurd hdir (hsup p hp)
  have hmem : (s.port.desc d).dir ∈ (moved s (s.port.desc d).dir abs []).held := by
    rw [held_moved]
    simpa using hheld
  have := (hown.one _ hmem).unique
    (show (Owner.desc d).Has (moved s (s.port.desc d).dir abs []).port _ from howner)
    (show Owner.cwd.Has (moved s (s.port.desc d).dir abs []).port _ from ⟨rfl, hne, hsup⟩)
  cases this

/-- A directory that was obtained and kept nowhere has no owner. -/
theorem Inv.not_owns_dropped {s : Dirs} (h : Inv s) {x : Handle} (fresh : x ∉ s.held) (e : Errno) :
    ¬ Owns (after s ⟨s.port, .error e, [.dir x]⟩) := by
  intro hown
  have hmem : x ∈ (after s ⟨s.port, .error e, [.dir x]⟩).held := by
    have hhist : (after s ⟨s.port, .error e, [.dir x]⟩).hist = s.hist ++ [.got x] := by
      rw [hist_after [] (List.append_nil _).symm]
      simp [Resource.dirHandle]
    rw [Ledger.held, hhist, Traffic.holding_got]
    exact Finset.mem_insert_self _ _
  obtain ⟨o, ho, -⟩ := hown.one _ hmem
  exact fresh (h.owned.held o x ho)

/-- A change of directory that does not keep it so leaves a handle with no owner, or with two. -/
theorem Inv.not_owns {me : Context} {s t : Dirs} {l : DirCall} (h : Inv s)
    (hl : step me s l = some t) (hk : ¬ Keeps s l) : ¬ Owns t := by
  cases l with
  | openat env dirfd path flags => exact absurd trivial hk
  | close fd => exact absurd trivial hk
  | chdir env path =>
    simp only [step] at hl
    split_ifs at hl with henv
    cases hl
    cases path with
    | none => exact absurd trivial hk
    | some path =>
      simp only [Keeps] at hk
      push Not at hk
      obtain ⟨hresolve, hopen, hjoin⟩ := hk
      unfold okmChdir
      simp only
      cases hr : s.port.okmResolve atFdcwd (some path) false with
      | error e =>
        rw [hr] at hresolve
        cases hresolve
      | ok at_ =>
        cases ho : env.openDir with
        | error e =>
          rw [ho] at hopen
          cases hopen
        | ok target =>
          have fresh := (henv.1 target (by rw [ho]; rfl)).2
          simp only
          cases hj : (if rootLength path ≠ 0 then join [] path okmMaxPath
              else join s.port.cwd path okmMaxPath) with
          | error e => exact h.not_owns_dropped fresh .enametoolong
          | ok abs => exact h.not_owns_moved (hjoin (by rw [hj]; rfl)) fresh abs
  | fchdir env fd =>
    simp only [step] at hl
    split_ifs at hl with henv
    cases hl
    simp only [Keeps] at hk
    push Not at hk
    obtain ⟨d, hd, hkind, hname, hopen⟩ := hk
    obtain ⟨name, hname⟩ := Option.isSome_iff_exists.mp hname
    unfold okmChdir
    simp only [show s.port.okmDescOf fd = some d from hd, hkind, hname, ne_eq, not_true_eq_false,
      if_false]
    cases ho : env.openDir with
    | error e => exact h.not_owns_shared hkind _
    | ok own =>
      exact h.not_owns_moved (hopen (by rw [ho]; rfl)) (henv.1 own (by rw [ho]; rfl)).2 _

theorem inv_of_kept {me : Context} {init : Start} {s : Dirs}
    (h : Reachable (restrict (step me) Keeps) (start me init) s) : Inv s :=
  h.invariant (inv_start me init) fun _ _ _ hu hv => inv_step hu hv

/-- **Every directory handle has one owner or was closed once**, and the working directory's is not
closed, in every run of calls that keep it so; and after any other call it is not so. -/
theorem owned_while_kept {me : Context} {init : Start} {s : Dirs}
    (h : Reachable (restrict (step me) Keeps) (start me init) s) :
    Owns s ∧ ∀ l t, step me s l = some t → (Owns t ↔ Keeps s l) := by
  have hinv := inv_of_kept h
  refine ⟨hinv.owns, fun l t hl => ⟨fun hown => ?_, fun hk => ?_⟩⟩
  · by_contra hk
    exact hinv.not_owns hl hk hown
  · exact (inv_step hinv (restrict_eq_some.mpr ⟨hk, hl⟩)).owns

/-- A directory is opened, made the working directory through its descriptor, and closed. -/
def opening : List DirCall :=
  [.openat .granting atFdcwd (some ['a']) oDirectory,
    .fchdir { Env.granting with openDir := .ok 33 } 3, .close 3]

theorem owned_while_kept_opening :
    ∃ s, Reachable (restrict (step 1) Keeps) (start 1 .supplied) s ∧ s.port.cwdDir = 33 ∧
      s.hist = [.got 7, .got 8, .got 32, .got 33, .gave 32] ∧ Owns s := by
  have hrun : (run (restrict (step 1) Keeps) (start 1 .supplied) opening).map
      (fun s => (s.port.cwdDir, s.hist)) =
      some (33, [.got 7, .got 8, .got 32, .got 33, .gave 32]) := by
    decide +kernel
  obtain ⟨s, hs, hview⟩ := Option.map_eq_some_iff.mp hrun
  obtain ⟨hcwd, hhist⟩ := Prod.mk.inj hview
  exact ⟨s, ⟨opening, hs⟩, hcwd, hhist, (owned_while_kept ⟨opening, hs⟩).1⟩

/-- The working directory is changed twice, and the environment gives a directory each time. -/
def changes : List DirCall :=
  [.chdir .granting (some ['a']), .chdir { Env.granting with openDir := .ok 33 } (some ['b'])]

/-- **A change of directory leaves the handle of the one before to nobody.** -/
theorem chdir_twice_leaks :
    ∃ s, Reachable (step 1) (start 1 .supplied) s ∧ s.port.cwdDir = 33 ∧
      s.hist = [.got 7, .got 8, .got 32, .got 33] ∧ ¬ Owns s := by
  have hrun : (run (step 1) (start 1 .supplied) changes).map
      (fun s => ((s.port.cwdDir, s.hist), s.port.pre,
        decide (∀ d, (s.port.desc d).kind ≠ .dir))) =
      some ((33, [.got 7, .got 8, .got 32, .got 33]), [⟨7, ['/']⟩, ⟨8, ['/', 'a']⟩], true) := by
    decide +kernel
  obtain ⟨s, hs, hview⟩ := Option.map_eq_some_iff.mp hrun
  obtain ⟨⟨hcwd, hhist⟩, hpre, hdesc⟩ := by
    simpa only [Prod.mk.injEq, decide_eq_true_eq] using hview
  refine ⟨s, ⟨changes, hs⟩, hcwd, hhist, fun hown => ?_⟩
  obtain ⟨o, ho, -⟩ := hown.one 32 (by rw [Ledger.held, hhist]; decide)
  cases o with
  | desc d => exact hdesc d ho.1
  | cwd =>
    have : s.port.cwdDir = 32 := ho.1
    rw [hcwd] at this
    cases this
  | supplied =>
    obtain ⟨p, hp, hdir⟩ := ho
    rw [hpre] at hp
    simp only [List.mem_cons, List.not_mem_nil, or_false] at hp
    rcases hp with rfl | rfl <;> cases hdir

end Dirs

end OpenkalMusl
