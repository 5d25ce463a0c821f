import OpenkalMusl.Descriptors.WorkingDirectory
import OpenkalMusl.Spawn.Grants

/-!
# A supplied directory with less

`okm_preopen_attenuate`: the handle that names are resolved against is replaced by one with fewer
rights, and so is the working directory's where it is the same. A handle that was opened through the
former one keeps the former rights. Names are resolved against the supplied directories and never
against those handles, so it is seen only where a handle itself is used: the working directory,
which a started program is given as the directory it runs in. A program that had entered a directory
beneath, or that enters one through a descriptor opened before, gives on what it gave up.

With a record, the file is opened first, and stays open where the attenuation is then refused.

The account of an attenuation is the handles that are the lesser one, or were opened through it; it
follows the environment's handles, of which one that was closed may be given again.

## Main definitions

* `PortState.okmPreopenAttenuate`: the call
* `Rights.step`: the call with `chdir`, `fchdir`, `openat` and `close`, and the account of each
  attenuation
* `Rights.TakesEffect`: resolution and grants use the lesser handle, or one opened through it
* `Rights.Renews`: the calls that keep it so
* `LeavesRecord`: a refused call that leaves the record open

## Main results

* `takes_effect_while_renewed`: attenuation takes effect in every run of such calls, and a refused
  one that leaves no record changes nothing
* `stale_directory_granted`: a run in which a started program is given the former rights
-/

namespace OpenkalMusl

open Transition PortState

/-- What the environment answers to an attenuation. -/
structure AttenuateEnv where
  /-- `kal_fs_dir_attenuate`, where there is one: the directory, the flags and the record's file. -/
  dirAttenuate : Option (Handle → ℕ → Option Handle → Except KalError Handle)
  /-- Whether `kal_fs_props` claims `KAL_FS_PROP_ATTENUATE` of a directory. -/
  attenuates : Handle → Bool
  /-- `KAL_DIR_RECORDED`. -/
  recorded : ℕ

/-- The first supplied directory of the name becomes `less`. -/
def lessen (name : Text) (less : Handle) : List Preopen → List Preopen
  | [] => []
  | p :: pre => if p.name = name then ⟨less, p.name⟩ :: pre else p :: lessen name less pre

/-- The supplied directory of the name. -/
def suppliedAs (name : Text) (pre : List Preopen) : Option Preopen :=
  pre.find? fun p => p.name = name

/-- What opening a record leaves: the table, its file where one was wanted, and what was
obtained. -/
structure Recording where
  port : PortState
  result : Except Errno (Option Handle)
  obtained : List Resource

namespace PortState

/-- What the record is opened with. -/
def recordFlags : ℕ := oWronly ||| oCreat ||| oAppend ||| oCloexec

/-- The record is opened, where one is wanted. -/
def openRecord (w : PortState) (me : Context) (env : Env) (wanted : Bool) (record : Option Text) :
    Recording :=
  if wanted then
    let o := w.doOpenat me env atFdcwd record recordFlags
    match o.result with
    | .error e => ⟨o.port, .error e, o.obtained⟩
    | .ok fd =>
      match o.port.okmDescOf fd with
      | none => ⟨o.port, .error .einval, o.obtained⟩
      | some d =>
        if (o.port.desc d).kind ≠ .file then ⟨o.port, .error .einval, o.obtained⟩
        else ⟨o.port, .ok (some (o.port.desc d).file), o.obtained⟩
  else ⟨w, .ok none, []⟩

/-- The handle `old` is replaced by `less`. -/
def replaceDir (w : PortState) (name : Text) (old less : Handle) : PortState :=
  { w with
    cwdDir := if w.cwdDir = old then less else w.cwdDir
    pre := lessen name less w.pre }

/-- `okm_preopen_attenuate`; what it returns is -1 with `errno` where the result is an error. -/
def okmPreopenAttenuate (w : PortState) (me : Context) (fs : AttenuateEnv) (env : Env) (name : Text)
    (flags : ℕ) (record : Option Text) : Outcome :=
  match suppliedAs name w.pre with
  | none => w.fail .enoent
  | some p =>
    match fs.dirAttenuate with
    | none => w.fail .eopnotsupp
    | some attenuate =>
      if fs.attenuates p.dir = false then w.fail .eopnotsupp
      else
        let r := w.openRecord me env (hasFlag flags fs.recorded) record
        match r.result with
        | .error e => ⟨r.port, .error e, r.obtained⟩
        | .ok file =>
          match attenuate p.dir flags file with
          | .error e => ⟨r.port, .error (okmErrno e), r.obtained⟩
          | .ok less => ⟨r.port.replaceDir name p.dir less, .ok 0, r.obtained ++ [.dir less]⟩

/-- The attenuation comes as far as opening a record. -/
def OpensRecord (w : PortState) (fs : AttenuateEnv) (name : Text) (flags : ℕ) : Prop :=
  (∃ p ∈ suppliedAs name w.pre, fs.attenuates p.dir = true) ∧ fs.dirAttenuate.isSome = true ∧
    hasFlag flags fs.recorded = true

instance (w : PortState) (fs : AttenuateEnv) (name : Text) (flags : ℕ) :
    Decidable (w.OpensRecord fs name flags) := inferInstanceAs (Decidable (_ ∧ _ ∧ _))

/-- The supplied directory that a name resolves to has the name `name`. -/
def Under (w : PortState) (name abs : Text) : Prop :=
  (bestPreopen abs w.pre none).map Preopen.name = some name

instance (w : PortState) (name abs : Text) : Decidable (w.Under name abs) :=
  inferInstanceAs (Decidable (_ = _))

/-- The supplied directories, the working directory and the descriptors are what they were. -/
structure Undisturbed (w v : PortState) : Prop where
  pre : v.pre = w.pre
  cwdDir : v.cwdDir = w.cwdDir
  cwd : v.cwd = w.cwd
  fd : v.fd = w.fd

end PortState

/-- The record is opened, and is no file or the environment does not attenuate: the call is refused
with the record open. -/
def LeavesRecord (w : PortState) (me : Context) (fs : AttenuateEnv) (env : Env) (name : Text)
    (flags : ℕ) (record : Option Text) : Prop :=
  w.OpensRecord fs name flags ∧
    (w.doOpenat me env atFdcwd record recordFlags).result.toOption.isSome = true ∧
    ∀ p ∈ suppliedAs name w.pre, ∀ attenuate ∈ fs.dirAttenuate,
      ∀ file ∈ (w.openRecord me env true record).result.toOption,
        (attenuate p.dir flags file).toOption = none

/-! ## The account of an attenuation -/

/-- An attenuation: the name of the directory, and the handles that are the lesser one or were
opened through it. -/
structure Lessened where
  name : Text
  lesser : List Handle

/-- The environment opened `target` through `base`. -/
def Lessened.opened (base target : Handle) (r : Lessened) : Lessened where
  name := r.name
  lesser := if base ∈ r.lesser then target :: r.lesser else r.lesser.filter (· ≠ target)

/-- The directory handles of the program, and the attenuations that were made. -/
structure Rights where
  dirs : Dirs
  lessened : List Lessened

inductive RightsCall where
  | dir (l : DirCall)
  | attenuate (fs : AttenuateEnv) (env : Env) (name : Text) (flags : ℕ) (record : Option Text)

/-- What a call leaves. -/
def DirCall.outcome (me : Context) (w : PortState) : DirCall → Outcome
  | .chdir env path => w.okmChdir env atFdcwd path
  | .fchdir env fd => w.okmChdir env fd none
  | .openat env dirfd path flags => w.doOpenat me env dirfd path flags
  | .close fd => w.doClose me fd

/-- The directory that a call opens one through. -/
def DirCall.through (w : PortState) : DirCall → Option Handle
  | .chdir _ path => (w.okmResolve atFdcwd path false).toOption.map At.base
  | .fchdir _ fd => (w.okmDescOf fd).map fun d => (w.desc d).dir
  | .openat _ dirfd path _ => (w.okmResolve dirfd path false).toOption.map At.base
  | .close _ => none

/-- The directories that were opened through `base`. -/
def noteOpened (base : Option Handle) (got : List Handle) (rs : List Lessened) : List Lessened :=
  match base with
  | none => rs
  | some b => got.foldl (fun rs h => rs.map (Lessened.opened b h)) rs

namespace Rights

/-- The table. -/
def port (s : Rights) : PortState := s.dirs.port

/-- What a call on directories leaves. -/
def afterDir (me : Context) (s : Rights) (l : DirCall) : Rights where
  dirs := Dirs.after s.dirs (l.outcome me s.port)
  lessened := noteOpened (l.through s.port)
    ((l.outcome me s.port).obtained.filterMap Resource.dirHandle) s.lessened

/-- What an attenuation has done before it asks the environment: the record is open, if one was
wanted. -/
def recording (me : Context) (s : Rights) (fs : AttenuateEnv) (env : Env) (name : Text) (flags : ℕ)
    (record : Option Text) : Rights :=
  if s.port.OpensRecord fs name flags then
    s.afterDir me (.openat env atFdcwd record recordFlags)
  else s

/-- The handle `old` was replaced by `less`. -/
def attenuated (s : Rights) (name : Text) (old less : Handle) : Rights where
  dirs := { port := s.port.replaceDir name old less, hist := s.dirs.hist ++ [.got less] }
  lessened := s.lessened.map (Lessened.opened old less) ++ [⟨name, [less]⟩]

/-- One call; the environment gives a directory handle that is not held. -/
def step (me : Context) (s : Rights) : RightsCall → Option Rights
  | .dir l => (Dirs.step me s.dirs l).map fun _ => s.afterDir me l
  | .attenuate fs env name flags record =>
    let o := s.port.okmPreopenAttenuate me fs env name flags record
    let t := s.recording me fs env name flags record
    if Dirs.MayAnswer s.dirs env then
      match o.result, suppliedAs name s.port.pre, suppliedAs name o.port.pre with
      | .ok _, some p, some q =>
        if q.dir ≠ 0 ∧ q.dir ∉ t.dirs.held then some (t.attenuated name p.dir q.dir) else none
      | _, _, _ => some t
    else none

/-- The table a program starts with. -/
def start (me : Context) (init : Start) : Rights := ⟨Dirs.start me init, []⟩

end Rights

/-- The directory that a file action opens one through. -/
def FileAction.through (w : PortState) : FileAction → Option Handle
  | .chdir path => (w.okmResolve atFdcwd (some path) false).toOption.map At.base
  | .fchdir fd => (w.okmDescOf fd).map fun d => (w.desc d).dir
  | _ => none

/-- The handle that the file actions lead through, from one: the directory that the program is to
run in is this one, or was opened through it. -/
def runsThrough (w : PortState) : Handle → List FileAction → Handle
  | h, [] => h
  | h, a :: as => runsThrough w ((a.through w).getD h) as

/-- A handle is one, or a spawn opened it through that one. -/
def OpenedThrough (env : SpawnEnv) (base h : Handle) : Prop :=
  h = base ∨ ∃ n rel, env.openDir n base rel = .ok h

namespace Rights

/-- A descriptor whose directory lies beneath an attenuated one was opened after it. -/
def Since (s : Rights) (fd : Int) (name : Option Text) : Prop :=
  ∀ d ∈ s.port.okmDescOf fd, ∀ abs ∈ name, ∀ r ∈ s.lessened, s.port.Under r.name abs →
    (s.port.desc d).dir ∈ r.lesser

/-- The name that the working directory gets by a `fchdir`. -/
def entered (s : Rights) (fd : Int) : Option Text :=
  (s.port.okmDescOf fd).bind fun d => (s.port.dirName (s.port.desc d)).map fun name =>
    (s.port.setCwd 0 (copyStr name name.length okmMaxPath).1).cwd

/-- The file actions lead through no descriptor that was opened before. -/
def LeadsSince (s : Rights) (fa : FileActions) : Prop :=
  ∀ fd, .fchdir fd ∈ fa.walk →
    s.Since fd (s.port.okmAbsolute fd (some here) okmMaxPath).toOption

/-- **Attenuation takes effect**: a name that resolves to the directory does so through the lesser
handle, and a started program is given the lesser handle, or one that was opened through it, under
the directory's name and as the directory beneath it that the program runs in. -/
structure TakesEffect (s : Rights) : Prop where
  resolves : ∀ r ∈ s.lessened, ∀ dirfd path base emptyOk at_,
    s.port.joinedTo dirfd path = some base → s.port.okmResolve dirfd (some path) emptyOk = .ok at_ →
    s.port.Under r.name (lexicalForm base path) → at_.base ∈ r.lesser
  grants : ∀ r ∈ s.lessened, ∀ env args fa q props bound unit,
    s.port.okmSpawnCommon env args fa = .ok q → s.LeadsSince fa →
    (∀ g ∈ ((startProgram props bound unit s.port.pre q).grants.getD []).tail,
      g.name = r.name → g.dir ∈ r.lesser) ∧
    (s.port.Under r.name q.workName →
      ∃ base ∈ r.lesser, base = runsThrough s.port s.port.cwdDir fa.walk ∧
        OpenedThrough env base q.work)

/-- A `fchdir` to a directory beneath an attenuated one goes through a descriptor that was opened
after it; a `close` does not close the working directory's handle; and a directory is
attenuated where no other is supplied under its name, and the working directory is not beneath
it or has its handle. This is asked of every call: also of an attenuation that is refused, and of a
`close` where nothing was attenuated, which would keep the rights as they are. -/
def Renews (me : Context) (s : Rights) : RightsCall → Prop
  | .dir (.fchdir _ fd) => s.Since fd (s.entered fd)
  | .dir (.close fd) => s.port.cwdDir ∈ s.dirs.held →
      s.port.cwdDir ∈ (Dirs.after s.dirs (s.port.doClose me fd)).held
  | .dir _ => True
  | .attenuate _ _ name _ _ =>
    (s.port.pre.filter fun p => p.name = name).length ≤ 1 ∧
      (s.port.Under name s.port.cwd → ∀ p ∈ suppliedAs name s.port.pre, s.port.cwdDir = p.dir)

instance (s : Rights) (fd : Int) (name : Option Text) : Decidable (s.Since fd name) :=
  inferInstanceAs (Decidable (∀ d ∈ s.port.okmDescOf fd, ∀ abs ∈ name, ∀ r ∈ s.lessened,
    s.port.Under r.name abs → (s.port.desc d).dir ∈ r.lesser))

instance (me : Context) (s : Rights) : (l : RightsCall) → Decidable (s.Renews me l)
  | .dir (.fchdir _ fd) => inferInstanceAs (Decidable (s.Since fd (s.entered fd)))
  | .dir (.close _) => inferInstanceAs (Decidable (_ → _))
  | .dir (.chdir ..) => isTrue trivial
  | .dir (.openat ..) => isTrue trivial
  | .attenuate .. => inferInstanceAs (Decidable (_ ∧ (_ → _)))

end Rights

/-! ## What the table's functions leave alone -/

namespace PortState

/-- The supplied directories and the working directory. -/
def places (w : PortState) : List Preopen × Handle × Text := (w.pre, w.cwdDir, w.cwd)

section Places

variable (w : PortState) (me : Context)

theorem places_pathSlotClear (slot : Fin okmMaxDirs) :
    (w.pathSlotClear slot).places = w.places := by
  unfold pathSlotClear okmKalFree
  cases w.dirlong slot with
  | none => rfl
  | some l =>
    simp only
    split_ifs <;> rfl

theorem places_closeOwned (p : Desc) : (w.closeOwned me p).places = w.places := by
  unfold closeOwned okmSockRelease
  cases p.kind with
  | socket =>
    cases p.sock with
    | none => rfl
    | some slot =>
      simp only
      cases (w.sock slot).state <;> cases (w.sock slot).pendConn <;> rfl
  | file => rfl
  | dir => rfl
  | channel => rfl
  | free => rfl
  | stream => rfl
  | null => rfl

theorem places_letGo (p : Desc) : (w.letGo me p).places = w.places := by
  have hnote : (w.noteLetGo me p).places = w.places := by
    unfold noteLetGo
    cases p.owned <;> rfl
  unfold letGo settle
  split_ifs
  · rw [places_closeOwned, hnote]
  · exact hnote
  · rw [places_closeOwned, hnote]
  · exact hnote

theorem places_descRelease (d : Fin okmMaxDesc) : (w.descRelease me d).places = w.places := by
  have hdrop : ∀ (v : PortState) (p : Desc), (v.dropName p).places = v.places := by
    intro v p
    unfold dropName
    cases p.pathSlot with
    | none => rfl
    | some slot => exact places_pathSlotClear v slot
  unfold descRelease
  simp only
  split_ifs
  · rfl
  · exact (hdrop _ _).trans (places_letGo w me _)

theorem places_vacate (f : Fin okmMaxFd) : (w.vacate me f).places = w.places := by
  unfold vacate
  cases (w.fd f).desc with
  | none => rfl
  | some d => exact places_descRelease w me d

theorem places_leave : (w.leave me).places = w.places := by
  have hfold : ∀ (ps : List Desc) (v : PortState),
      (ps.foldl (fun w p => w.closeOwned me p) v).places = v.places := by
    intro ps
    induction ps with
    | nil => exact fun _ => rfl
    | cons p ps ih =>
      intro v
      rw [List.foldl_cons, ih, places_closeOwned]
  unfold leave takeSettling
  split_ifs
  · rfl
  · exact hfold _ _

theorem places_okmDirRemember (fd : Int) (abs : Text) (alloc : Option ℕ) :
    (w.okmDirRemember fd abs alloc).places = w.places := by
  have hkeep : ∀ (v : PortState) (slot : Fin okmMaxDirs),
      (v.keepName slot abs alloc).places = v.places := by
    intro v slot
    unfold keepName writeName
    split_ifs
    · exact places_pathSlotClear v slot
    · cases alloc <;> exact places_pathSlotClear v slot
  rcases w.okmDirRemember_cases fd abs alloc with
    he | ⟨d, -, ⟨slot, -, he⟩ | ⟨-, he | ⟨slot, -, he⟩⟩⟩
  · rw [he]
  · rw [he]
    exact hkeep w slot
  · rw [he]
    rfl
  · rw [he]
    exact hkeep _ slot

/-- **The table's functions** leave the supplied directories and the working directory alone. -/
theorem places_rules (c : List Preopen × Handle × Text) : OpRules me fun w => w.places = c where
  bind := by
    intro w f kind stream file dir flags _ hw
    rcases w.okmFdBind_cases me f kind stream file dir flags with he | ⟨g, d, -, -, he⟩
    · rw [he]
      exact hw
    · rw [he]
      exact (places_vacate _ me g).trans hw
  dup := by
    intro w fd newfd cloexec hw
    rcases w.okmFdDup_cases me fd newfd cloexec with he | ⟨f, n, d, -, -, he⟩
    · rw [he]
      exact hw
    · rw [he]
      exact (places_vacate w me n).trans hw
  release := by
    intro w fd hw
    rcases w.okmFdRelease_cases me fd with he | ⟨f, d, -, he⟩
    · rw [he]
      exact hw
    · rw [he]
      exact (places_descRelease _ me d).trans hw
  cloexec := by
    intro w fd on hw
    rcases w.okmFdCloexec_cases fd on with he | ⟨f, d, -, he⟩
    · rw [he]
      exact hw
    · rw [he]
      exact hw
  remember := fun w fd abs alloc _ hw => (places_okmDirRemember w fd abs alloc).trans hw
  sock := fun _ _ hw => hw
  descSock := fun _ _ _ hw => hw
  returned := fun _ _ hw => hw

theorem places_finish (r : PortState × Except Errno (Fin okmMaxFd)) (got : Resource) :
    (finish r me got).port.places = r.1.places := by
  obtain ⟨v, e | f⟩ := r
  · exact places_leave v me
  · exact places_leave v me

theorem places_doOpenat (env : Env) (halloc : ∀ a ∈ env.alloc, w.okmFromSnapshot a = false)
    (dirfd : Int) (path : Option Text) (flags : ℕ) :
    (w.doOpenat me env dirfd path flags).port.places = w.places := by
  have hrules := places_rules me w.places
  have hdir : (w.openatDir me env dirfd path flags).port.places = w.places := by
    unfold openatDir
    cases env.openDir with
    | error e => rfl
    | ok d =>
      simp only
      rw [places_finish]
      exact hrules.bindDir d flags _ halloc rfl
  have hnew : ∀ kind : Kind, kind ≠ .free → ∀ stream file,
      (w.bindNew me kind stream file 0 flags).1.places = w.places :=
    fun kind hk stream file => hrules.bindNew hk stream file 0 flags rfl
  unfold doOpenat
  split
  · split_ifs
    · rfl
    · rfl
    · rw [finishPlain, places_leave, hnew .null (by decide)]
  · cases w.okmResolve dirfd path false with
    | error e => rfl
    | ok at_ =>
      simp only
      split_ifs
      · rfl
      · exact hdir
      · split
        · rw [places_finish, hnew .file (by decide)]
        · exact hdir
        · rfl

theorem places_doClose (fd : Int) : (w.doClose me fd).port.places = w.places := by
  unfold doClose
  cases w.okmDescOf fd with
  | none => rfl
  | some d =>
    simp only [places_leave]
    exact (places_rules me w.places).release w fd rfl

end Places

/-! ## The supplied directory of a name -/

/-- The empty name is beneath no directory. -/
theorem bestPreopen_nil (pre : List Preopen) : bestPreopen [] pre none = none := by
  refine bestPreopen_eq_none_iff.mpr ⟨rfl, fun p _ => ?_⟩
  cases p.name <;> simp [isPrefixAtBoundary, samePrefix]

theorem not_under_nil (w : PortState) (name : Text) : ¬ w.Under name [] := by
  intro h
  rw [Under, bestPreopen_nil] at h
  cases h

theorem Under.exists_supplied {w : PortState} {name abs : Text} (h : w.Under name abs) :
    ∃ p ∈ w.pre, p.name = name ∧ bestPreopen abs w.pre none = some p := by
  obtain ⟨p, hp, hname⟩ := Option.map_eq_some_iff.mp h
  rcases (bestPreopen_eq_some hp).1 with hbest | hmem
  · cases hbest
  · exact ⟨p, hmem.1, hname, hp⟩

/-- What the loop takes depends on the names alone. -/
theorem bestPreopen_congr {abs : Text} {pre pre' : List Preopen} {best best' : Option Preopen}
    (hpre : pre.map Preopen.name = pre'.map Preopen.name)
    (hbest : best.map Preopen.name = best'.map Preopen.name) :
    (bestPreopen abs pre best).map Preopen.name =
      (bestPreopen abs pre' best').map Preopen.name := by
  induction pre generalizing pre' best best' with
  | nil =>
    obtain rfl : pre' = [] := List.map_eq_nil_iff.mp hpre.symm
    exact hbest
  | cons p pre ih =>
    cases pre' with
    | nil => cases hpre
    | cons p' pre' =>
      obtain ⟨hname, hrest⟩ := List.cons.inj hpre
      have hall : best.all (fun b => decide (p.name.length > b.name.length)) =
          best'.all fun b => decide (p'.name.length > b.name.length) := by
        cases best <;> cases best' <;> simp_all
      unfold bestPreopen
      rw [hall, hname]
      split_ifs
      · exact ih hrest hbest
      · exact ih hrest (congrArg some hname)
      · exact ih hrest hbest

theorem under_congr {w v : PortState} (h : v.pre.map Preopen.name = w.pre.map Preopen.name)
    (name abs : Text) : v.Under name abs ↔ w.Under name abs := by
  unfold Under
  rw [bestPreopen_congr h rfl]

/-- A name that is joined and resolved is resolved against the supplied directory it is under. -/
theorem base_of_under {w : PortState} {dirfd : Int} {path base : Text} {emptyOk : Bool} {at_ : At}
    {name : Text} (hbase : w.joinedTo dirfd path = some base)
    (h : w.okmResolve dirfd (some path) emptyOk = .ok at_)
    (hunder : w.Under name (lexicalForm base path)) :
    ∃ p ∈ w.pre, p.name = name ∧ at_.base = p.dir := by
  have hne : path ≠ [] ∨ emptyOk = true := by
    by_contra hne
    simp only [not_or, not_not, Bool.not_eq_true] at hne
    simp [okmResolve, hne] at h
  obtain ⟨p, hp, hname, hbest⟩ := hunder.exists_supplied
  rcases okmResolve_of_joinedTo hbase hne with he | ⟨-, n, -, he⟩
  · rw [h] at he
    cases he
  · rw [h, matchPreopen, hbest] at he
    cases he
    exact ⟨p, hp, hname, rfl⟩

/-! ## The supplied directories with one replaced -/

theorem map_name_lessen (name : Text) (less : Handle) (pre : List Preopen) :
    (lessen name less pre).map Preopen.name = pre.map Preopen.name := by
  induction pre with
  | nil => rfl
  | cons p pre ih =>
    unfold lessen
    split_ifs
    · rfl
    · rw [List.map_cons, List.map_cons, ih]

theorem mem_lessen {name : Text} {less : Handle} {pre : List Preopen} {q : Preopen}
    (h : q ∈ lessen name less pre) : q ∈ pre ∨ q = ⟨less, name⟩ := by
  induction pre with
  | nil => cases h
  | cons p pre ih =>
    unfold lessen at h
    split_ifs at h with hname
    · rcases List.mem_cons.mp h with rfl | h
      · exact Or.inr (by rw [hname])
      · exact Or.inl (List.mem_cons_of_mem _ h)
    · rcases List.mem_cons.mp h with rfl | h
      · exact Or.inl (List.mem_cons_self ..)
      · exact (ih h).imp_left (List.mem_cons_of_mem _)

/-- Where the name is supplied once, nothing of that name stays as it was. -/
theorem dir_of_mem_lessen {name : Text} {less : Handle} {pre : List Preopen} {q : Preopen}
    (honce : (pre.filter fun p => p.name = name).length ≤ 1) (h : q ∈ lessen name less pre)
    (hq : q.name = name) : q.dir = less := by
  induction pre with
  | nil => cases h
  | cons p pre ih =>
    unfold lessen at h
    split_ifs at h with hname
    · rcases List.mem_cons.mp h with rfl | h
      · rfl
      · -- a second of the name
        rw [List.filter_cons_of_pos (by simpa using hname), List.length_cons] at honce
        have hmem : q ∈ pre.filter fun p => p.name = name :=
          List.mem_filter.mpr ⟨h, by simpa using hq⟩
        have hpos := List.length_pos_of_mem hmem
        omega
    · rw [List.filter_cons_of_neg (by simpa using hname)] at honce
      rcases List.mem_cons.mp h with rfl | h
      · exact absurd hq hname
      · exact ih honce h

theorem suppliedAs_lessen {name : Text} (less : Handle) {pre : List Preopen} {p : Preopen}
    (h : suppliedAs name pre = some p) :
    suppliedAs name (lessen name less pre) = some ⟨less, name⟩ := by
  induction pre with
  | nil => cases h
  | cons q pre ih =>
    unfold lessen
    split_ifs with hname
    · simp [suppliedAs, hname]
    · have hrest : suppliedAs name pre = some p := by
        simpa [suppliedAs, hname] using h
      have := ih hrest
      simpa [suppliedAs, hname] using this

theorem name_of_suppliedAs {name : Text} {pre : List Preopen} {p : Preopen}
    (h : suppliedAs name pre = some p) : p ∈ pre ∧ p.name = name :=
  ⟨List.mem_of_find?_eq_some h, by simpa using List.find?_some h⟩

end PortState

/-! ## What an account keeps -/

namespace Lessened

theorem mem_opened_of_ne {base target x : Handle} {r : Lessened} (hx : x ∈ r.lesser)
    (hne : x ≠ target) : x ∈ (r.opened base target).lesser := by
  unfold opened
  simp only
  split_ifs
  · exact List.mem_cons_of_mem _ hx
  · exact List.mem_filter.mpr ⟨hx, by simpa using hne⟩

theorem target_mem_opened {base target : Handle} {r : Lessened} (hbase : base ∈ r.lesser) :
    target ∈ (r.opened base target).lesser := by
  unfold opened
  rw [if_pos hbase]
  exact List.mem_cons_self ..

end Lessened

/-- What a directory that is opened changes of an account: a handle of the account that is not given
again stays, and the new one is of it where it was opened through one of it. -/
theorem mem_noteOpened {base : Option Handle} {got : List Handle} {rs : List Lessened}
    {r' : Lessened} (h : r' ∈ noteOpened base got rs) :
    ∃ r ∈ rs, r'.name = r.name ∧ (∀ x ∈ r.lesser, x ∉ got → x ∈ r'.lesser) ∧
      ∀ b, base = some b → b ∉ got → b ∈ r.lesser → ∀ x ∈ got, x ∈ r'.lesser := by
  cases base with
  | none => exact ⟨r', h, rfl, fun _ hx _ => hx, nofun⟩
  | some b =>
    unfold noteOpened at h
    simp only at h
    induction got generalizing rs with
    | nil => exact ⟨r', h, rfl, fun _ hx _ => hx, fun _ _ _ _ x hx => absurd hx List.not_mem_nil⟩
    | cons g got ih =>
      obtain ⟨r₁, hr₁, hname, hkeep, hnew⟩ := ih h
      obtain ⟨r, hr, rfl⟩ := List.mem_map.mp hr₁
      refine ⟨r, hr, hname, fun x hx hgot => ?_, ?_⟩
      · rw [List.mem_cons, not_or] at hgot
        exact hkeep x (Lessened.mem_opened_of_ne hx hgot.1) hgot.2
      · intro b' hb' hgot hb x hx
        cases hb'
        rw [List.mem_cons, not_or] at hgot
        by_cases hxg : x ∈ got
        · exact hnew b rfl hgot.2 (Lessened.mem_opened_of_ne hb hgot.1) x hxg
        · obtain rfl := (List.mem_cons.mp hx).resolve_right hxg
          exact hkeep x (Lessened.target_mem_opened hb) hxg

/-- The handles of the table: what is supplied and what a description has are held, and a
description's is in no other use. -/
structure Dirs.Seated (s : Dirs) : Prop where
  tidy : Dirs.Tidy s.port
  supplied : ∀ p ∈ s.port.pre, p.dir ∈ s.held
  desc : ∀ d h, (s.port.desc d).dirHeld = some h → h ∈ s.held ∧ ∀ p ∈ s.port.pre, p.dir ≠ h
  apart : ∀ d e h, (s.port.desc d).dirHeld = some h → (s.port.desc e).dirHeld = some h → d = e

/-- And the working directory's is held. -/
structure Dirs.Placed (s : Dirs) : Prop extends Dirs.Seated s where
  cwd : s.port.cwdDir ∈ s.held ∨ s.port.pre = []

namespace Dirs

/-- **A call keeps the handles in their places.** -/
theorem Seated.effect {s t : Dirs} (h : Seated s) (he : Effect s t) : Seated t := by
  obtain ⟨hpre, htidy, hchange⟩ := he
  -- a call that lets nothing go, and gives no description another handle
  have hsame : s.held ⊆ t.held → (∀ d, (t.port.desc d).dirHeld = (s.port.desc d).dirHeld) →
      Seated t := by
    intro hheld hat
    refine ⟨htidy, fun p hp => ?_, fun d x hd => ?_, fun d e x hd he => ?_⟩
    · exact hheld (h.supplied p (hpre ▸ hp))
    · rw [hat] at hd
      rw [hpre]
      exact ⟨hheld (h.desc d x hd).1, (h.desc d x hd).2⟩
    · rw [hat] at hd he
      exact h.apart d e x hd he
  cases hchange with
  | still at_ cwd hist => exact hsame (congrArg Traffic.holding hist).ge at_
  | opened d x fresh free at_ cwd hist =>
    have hheld : t.held = insert x s.held := (congrArg Traffic.holding hist).trans
      (Traffic.holding_got _ _)
    refine ⟨htidy, fun p hp => ?_, fun e y hy => ?_, fun e e' y hy hy' => ?_⟩
    · rw [hheld]
      exact Finset.mem_insert_of_mem (h.supplied p (hpre ▸ hp))
    · rw [at_] at hy
      rw [hheld, hpre]
      split_ifs at hy
      · cases hy
        exact ⟨Finset.mem_insert_self _ _, fun p hp hpx => fresh.2 (hpx ▸ h.supplied p hp)⟩
      · exact ⟨Finset.mem_insert_of_mem (h.desc e y hy).1, (h.desc e y hy).2⟩
    · rw [at_] at hy hy'
      split_ifs at hy hy' with hd hd'
      · rw [hd, hd']
      · cases hy
        exact absurd (h.desc e' x hy').1 fresh.2
      · cases hy'
        exact absurd (h.desc e x hy).1 fresh.2
      · exact h.apart e e' y hy hy'
  | refused x fresh at_ cwd hist =>
    have hheld : t.held = s.held := by
      rw [Ledger.held, hist, Traffic.holding_gave, Traffic.holding_got]
      exact Finset.erase_insert fresh.2
    exact hsame hheld.ge at_
  | closed d x had at_ cwd hist =>
    have hheld : t.held = s.held.erase x := (congrArg Traffic.holding hist).trans
      (Traffic.holding_gave _ _)
    refine ⟨htidy, fun p hp => ?_, fun e y hy => ?_, fun e e' y hy hy' => ?_⟩
    · rw [hpre] at hp
      rw [hheld]
      exact Finset.mem_erase.mpr ⟨(h.desc d x had).2 p hp, h.supplied p hp⟩
    · rw [at_] at hy
      rw [hheld, hpre]
      split_ifs at hy with hed
      refine ⟨Finset.mem_erase.mpr ⟨?_, (h.desc e y hy).1⟩, (h.desc e y hy).2⟩
      rintro rfl
      exact hed (h.apart e d y hy had)
    · rw [at_] at hy hy'
      split_ifs at hy hy'
      exact h.apart e e' y hy hy'
  | moved x fresh lone at_ cwd hist =>
    have hheld : t.held = insert x s.held := (congrArg Traffic.holding hist).trans
      (Traffic.holding_got _ _)
    exact hsame (hheld.symm ▸ Finset.subset_insert _ _) at_

/-- So it does with the working directory's, where it keeps that held. -/
theorem Placed.effect {s t : Dirs} (h : Placed s) (he : Effect s t)
    (hcwd : s.port.cwdDir ∈ s.held → t.port.cwdDir ∈ t.held) : Placed t where
  toSeated := h.toSeated.effect he
  cwd := by
    rw [he.pre]
    exact h.cwd.imp_left hcwd

theorem placed_start (me : Context) (init : Start) : Placed (start me init) := by
  have hinv := inv_start me init
  have hnone : ∀ d h, ((start me init).port.desc d).dirHeld ≠ some h := by
    intro d h hd
    rw [start_dirHeld] at hd
    cases hd
  refine ⟨⟨hinv.tidy, fun p hp => ?_, fun d h hd => absurd hd (hnone d h),
    fun d _ h hd => absurd hd (hnone d h)⟩, hinv.cwd.imp_right And.left⟩
  exact hinv.owned.held .supplied p.dir ⟨p, hp, rfl⟩

/-- What is held after a call that gives nothing back. -/
theorem mem_held_after {s : Dirs} {o : Outcome} (hlog : o.port.log = s.port.log) (x : Handle) :
    x ∈ (after s o).held ↔ x ∈ s.held ∨ x ∈ o.obtained.filterMap Resource.dirHandle := by
  rw [Ledger.held, hist_after [] (hlog.trans (List.append_nil _).symm)]
  simp only [List.filterMap_nil, List.map_nil, List.append_nil]
  exact Traffic.mem_holding_append_got

/-- A call that gives nothing back, and leaves the descriptions and the supplied directories. -/
theorem Seated.obtain {s : Dirs} (h : Seated s) {o : Outcome} (htidy : Tidy o.port)
    (hdesc : o.port.desc = s.port.desc) (hpre : o.port.pre = s.port.pre)
    (hlog : o.port.log = s.port.log) : Seated (after s o) := by
  refine ⟨htidy, fun p hp => ?_, fun d x hd => ?_, fun d e x hd he => ?_⟩
  · exact (mem_held_after hlog _).mpr (Or.inl (h.supplied p (hpre ▸ hp)))
  · obtain ⟨hx, hne⟩ := h.desc d x (hdesc ▸ hd)
    exact ⟨(mem_held_after hlog x).mpr (Or.inl hx), fun p hp => hne p (hpre ▸ hp)⟩
  · exact h.apart d e x (hdesc ▸ hd) (hdesc ▸ he)

theorem Placed.obtain {s : Dirs} (h : Placed s) {o : Outcome} (htidy : Tidy o.port)
    (hdesc : o.port.desc = s.port.desc) (hpre : o.port.pre = s.port.pre)
    (hlog : o.port.log = s.port.log)
    (hcwd : o.port.cwdDir ∈ s.held ∨ o.port.cwdDir ∈ o.obtained.filterMap Resource.dirHandle ∨
      s.port.pre = []) : Placed (after s o) where
  toSeated := h.toSeated.obtain htidy hdesc hpre hlog
  cwd := by
    rcases hcwd with hc | hc | hc
    · exact Or.inl ((mem_held_after hlog _).mpr (Or.inl hc))
    · exact Or.inl ((mem_held_after hlog _).mpr (Or.inr hc))
    · exact Or.inr (hpre.trans hc)

end Dirs

namespace PortState

theorem openDir_of_obtained_doOpenat {w : PortState} {me : Context} {env : Env} {dirfd : Int}
    {path : Option Text} {flags : ℕ} {x : Handle}
    (h : x ∈ (w.doOpenat me env dirfd path flags).obtained.filterMap Resource.dirHandle) :
    env.openDir = .ok x := by
  have hfinish : ∀ (r : PortState × Except Errno (Fin okmMaxFd)) (got : Resource),
      (finish r me got).obtained = [got] := by
    rintro ⟨v, e | f⟩ got <;> rfl
  have hdir : x ∈ (w.openatDir me env dirfd path flags).obtained.filterMap Resource.dirHandle →
      env.openDir = .ok x := by
    unfold openatDir
    cases env.openDir with
    | error e => simp [fail]
    | ok d => simp [hfinish, Resource.dirHandle, eq_comm]
  unfold doOpenat at h
  split at h
  · split_ifs at h <;> simp [fail, finishPlain] at h
  · cases hr : w.okmResolve dirfd path false with
    | error e => simp [hr, fail] at h
    | ok at_ =>
      simp only [hr] at h
      split_ifs at h
      · simp [fail] at h
      · exact hdir h
      · split at h
        · simp [hfinish, Resource.dirHandle] at h
        · exact hdir h
        · simp [fail] at h

/-- A name that is joined as `chdir` joins it has the form it is resolved in. -/
theorem exists_joinedTo {w : PortState} {path abs : Text}
    (hjoin : (if rootLength path ≠ 0 then join [] path okmMaxPath
      else join w.cwd path okmMaxPath) = .ok abs) :
    ∃ base, w.joinedTo atFdcwd path = some base ∧ abs = lexicalForm base path ∧
      (lexicalForm base path).length < okmMaxPath := by
  obtain ⟨base, hbase, hj⟩ : ∃ base, w.joinedTo atFdcwd path = some base ∧
      join base path okmMaxPath = .ok abs := by
    unfold joinedTo
    split_ifs at hjoin with hroot
    · exact ⟨[], if_pos hroot, hjoin⟩
    · exact ⟨w.cwd, (if_neg hroot).trans (if_pos rfl), hjoin⟩
  refine ⟨base, hbase, ?_⟩
  rcases join_cases base path okmMaxPath with he | ⟨he, hlt⟩
  · rw [hj] at he
    cases he
  · rw [hj] at he
    exact ⟨Except.ok.inj he, hlt⟩

/-- The name a `chdir` gives the working directory is the one it resolved. -/
theorem cwd_setCwd_of_resolve {w : PortState} {path abs : Text} {at_ : At}
    (h : w.okmResolve atFdcwd (some path) false = .ok at_)
    (hjoin : (if rootLength path ≠ 0 then join [] path okmMaxPath
      else join w.cwd path okmMaxPath) = .ok abs) (target : Handle) :
    ∃ base, w.joinedTo atFdcwd path = some base ∧
      (w.setCwd target abs).cwd = lexicalForm base path := by
  obtain ⟨base, hbase, rfl, hlt⟩ := exists_joinedTo hjoin
  have hne : path ≠ [] ∨ false = true := by
    refine Or.inl ?_
    rintro rfl
    simp [okmResolve] at h
  have hform : lexicalForm base path ≠ [] := by
    intro hnil
    rcases okmResolve_of_joinedTo hbase hne with he | ⟨-, n, -, he⟩
    · rw [h] at he
      cases he
    · rw [h, hnil, matchPreopen, bestPreopen_nil] at he
      cases he
  refine ⟨base, hbase, ?_⟩
  simp only [setCwd, copyStr_of_lt hlt, List.take_length, if_neg hform]

end PortState

/-! ## What an attenuation can do -/

namespace PortState

/-- The table once the record is open, if one is. -/
def recorded (w : PortState) (me : Context) (fs : AttenuateEnv) (env : Env)
    (name : Text) (flags : ℕ)
    (record : Option Text) : PortState :=
  if w.OpensRecord fs name flags then (w.doOpenat me env atFdcwd record recordFlags).port else w

theorem openRecord_port (w : PortState) (me : Context) (env : Env) (record : Option Text) :
    (w.openRecord me env true record).port =
      (w.doOpenat me env atFdcwd record recordFlags).port := by
  unfold openRecord
  simp only [if_true]
  split
  · rfl
  · split
    · rfl
    · split_ifs <;> rfl

variable {w : PortState} {me : Context} {fs : AttenuateEnv} {env : Env} {name : Text} {flags : ℕ}
  {record : Option Text}

variable (w me fs env name flags record) in
/-- **What an attenuation can do**: it is refused, or the environment attenuates the
directory of the name. -/
theorem okmPreopenAttenuate_cases :
    ((∃ e, (w.okmPreopenAttenuate me fs env name flags record).result = .error e) ∧
      (w.okmPreopenAttenuate me fs env name flags record).port =
        w.recorded me fs env name flags record) ∨
    ∃ p less, suppliedAs name w.pre = some p ∧
      (w.okmPreopenAttenuate me fs env name flags record).result = .ok 0 ∧
      (w.okmPreopenAttenuate me fs env name flags record).port =
        (w.recorded me fs env name flags record).replaceDir name p.dir less := by
  unfold okmPreopenAttenuate recorded
  cases hp : suppliedAs name w.pre with
  | none =>
    have hno : ¬ w.OpensRecord fs name flags := by simp [OpensRecord, hp]
    exact Or.inl ⟨⟨_, rfl⟩, (if_neg hno).symm⟩
  | some p =>
    cases hfs : fs.dirAttenuate with
    | none =>
      have hno : ¬ w.OpensRecord fs name flags := by simp [OpensRecord, hfs]
      exact Or.inl ⟨⟨_, rfl⟩, (if_neg hno).symm⟩
    | some attenuate =>
      simp only
      by_cases hclaims : fs.attenuates p.dir = false
      · have hno : ¬ w.OpensRecord fs name flags := by simp [OpensRecord, hp, hclaims]
        rw [if_pos hclaims, if_neg hno]
        exact Or.inl ⟨⟨_, rfl⟩, rfl⟩
      · -- the directory is asked for, with the record where one is wanted
        have hport : (w.openRecord me env (hasFlag flags fs.recorded) record).port =
            if w.OpensRecord fs name flags then
              (w.doOpenat me env atFdcwd record recordFlags).port else w := by
          cases hflag : hasFlag flags fs.recorded with
          | false =>
            rw [if_neg (by simp [OpensRecord, hflag])]
            rfl
          | true =>
            rw [if_pos (by simpa [OpensRecord, hp, hfs, hflag] using hclaims), openRecord_port]
        rw [if_neg hclaims, ← hport]
        cases (w.openRecord me env (hasFlag flags fs.recorded) record).result with
        | error e => exact Or.inl ⟨⟨e, rfl⟩, rfl⟩
        | ok file =>
          simp only
          cases attenuate p.dir flags file with
          | error e => exact Or.inl ⟨⟨okmErrno e, rfl⟩, rfl⟩
          | ok less => exact Or.inr ⟨p, less, rfl, rfl, rfl⟩

theorem places_recorded (halloc : ∀ a ∈ env.alloc, w.okmFromSnapshot a = false) :
    (w.recorded me fs env name flags record).places = w.places := by
  unfold recorded
  split_ifs
  · exact places_doOpenat w me env halloc atFdcwd record recordFlags
  · rfl

theorem pre_recorded (halloc : ∀ a ∈ env.alloc, w.okmFromSnapshot a = false) :
    (w.recorded me fs env name flags record).pre = w.pre :=
  congrArg Prod.fst (places_recorded halloc)

/-- A bind that took a descriptor which was free. -/
def TakesFree (w : PortState) (r : PortState × Except Errno (Fin okmMaxFd)) : Prop :=
  ∀ v f, r = (v, .ok f) → (w.fd f).desc = none ∧ (v.fd f).desc ≠ none ∧ v.settling = []

theorem TakesFree.fd_ne {v : PortState} {f : Fin okmMaxFd} (h : w.TakesFree (v, .ok f)) :
    (v.leave me).fd ≠ w.fd := by
  obtain ⟨hfree, hbound, hset⟩ := h v f rfl
  intro heq
  rw [leave_of_settled hset] at heq
  exact hbound (by rw [heq, hfree])

theorem TakesFree.finish {r : PortState × Except Errno (Fin okmMaxFd)} (h : w.TakesFree r)
    {got : Resource} (hr : (PortState.finish r me got).result.toOption.isSome = true) :
    (PortState.finish r me got).port.fd ≠ w.fd := by
  obtain ⟨v, e | f⟩ := r
  · cases hr
  · exact h.fd_ne

theorem TakesFree.finishPlain {r : PortState × Except Errno (Fin okmMaxFd)} (h : w.TakesFree r)
    {got : List Resource} (hr : (PortState.finishPlain r me got).result.toOption.isSome = true) :
    (PortState.finishPlain r me got).port.fd ≠ w.fd := by
  obtain ⟨v, e | f⟩ := r
  · cases hr
  · exact h.fd_ne

theorem takesFree_bindNew (ht : Dirs.Tidy w) (me : Context) (kind : Kind)
    (stream file dir : Handle) (flags : ℕ) :
    w.TakesFree (w.bindNew me kind stream file dir flags) := by
  intro v f hv
  rcases bindNew_cases ht.exact me kind stream file dir flags with ⟨e, he⟩ | ⟨g, d, -, hfree, hb⟩
  · rw [he] at hv
    cases hv
  · rw [hb] at hv
    obtain ⟨rfl, hfg⟩ := Prod.mk.inj hv
    cases hfg
    have hfd : ∀ (u : PortState) (x : FdSlot), (u.setFd f x).fd f = x :=
      fun u x => Function.update_self ..
    refine ⟨hfree, ?_, ht.settled⟩
    rw [hfd]
    nofun

theorem takesFree_bindDir (ht : Dirs.Tidy w) (me : Context) (d : Handle) (flags : ℕ)
    (named : Option Text) (alloc : Option ℕ) :
    w.TakesFree (w.bindDir me d flags named alloc) := by
  have hnew := takesFree_bindNew ht me .dir 0 0 d flags
  unfold bindDir
  generalize w.bindNew me .dir 0 0 d flags = r at hnew ⊢
  obtain ⟨u, e | g⟩ := r
  · nofun
  · obtain ⟨hfree, hbound, hset⟩ := hnew u g rfl
    cases named with
    | none => exact hnew
    | some abs =>
      intro v f hv
      obtain ⟨rfl, hfg⟩ := Prod.mk.inj hv
      cases hfg
      refine ⟨hfree, ?_, (okmDirRemember_settling u _ abs alloc).trans hset⟩
      rw [okmDirRemember_fd]
      exact hbound

/-- A record that is opened takes a descriptor that was free. -/
theorem fd_doOpenat_ne (ht : Dirs.Tidy w) {dirfd : Int} {path : Option Text}
    (h : (w.doOpenat me env dirfd path flags).result.toOption.isSome = true) :
    (w.doOpenat me env dirfd path flags).port.fd ≠ w.fd := by
  have hdir : (w.openatDir me env dirfd path flags).result.toOption.isSome = true →
      (w.openatDir me env dirfd path flags).port.fd ≠ w.fd := by
    unfold openatDir
    cases env.openDir with
    | error e => nofun
    | ok d =>
      simp only
      exact fun hok => (takesFree_bindDir ht me d flags _ env.alloc).finish hok
  unfold doOpenat at h ⊢
  split at h
  · rename_i hnull
    rw [if_pos hnull]
    split_ifs at h ⊢
    · cases h
    · cases h
    · exact (takesFree_bindNew ht me .null 0 0 0 flags).finishPlain h
  · rename_i hnull
    rw [if_neg hnull]
    cases hr : w.okmResolve dirfd path false with
    | error e =>
      rw [hr] at h
      cases h
    | ok at_ =>
      rw [hr] at h
      simp only at h ⊢
      split_ifs at h ⊢
      · cases h
      · exact hdir h
      · split at h
        · exact (takesFree_bindNew ht me .file _ _ 0 flags).finish h
        · exact hdir h
        · cases h

theorem recorded_of_opensRecord (h : w.OpensRecord fs name flags) :
    w.recorded me fs env name flags record = (w.doOpenat me env atFdcwd record recordFlags).port :=
  if_pos h

/-- Where a record is opened and a file, the call succeeds if the environment attenuates. -/
theorem result_of_not_leavesRecord (hopens : w.OpensRecord fs name flags)
    (hok : (w.doOpenat me env atFdcwd record recordFlags).result.toOption.isSome = true)
    (h : ¬ LeavesRecord w me fs env name flags record) :
    (w.okmPreopenAttenuate me fs env name flags record).result = .ok 0 := by
  unfold LeavesRecord at h
  push Not at h
  obtain ⟨p, hp, attenuate, hfs, file, hfile, hdone⟩ := h hopens hok
  obtain ⟨⟨q, hq, hclaims⟩, -, hflag⟩ := hopens
  rw [Option.mem_def] at hp hq hfs
  rw [hp] at hq
  obtain rfl := Option.some.inj hq
  unfold okmPreopenAttenuate
  rw [hp, hfs]
  simp only
  rw [if_neg (by rw [hclaims]; nofun), hflag]
  cases hr : (w.openRecord me env true record).result with
  | error e =>
    rw [hr] at hfile
    cases hfile
  | ok f =>
    rw [hr] at hfile
    cases hfile
    simp only
    cases hless : attenuate p.dir flags file with
    | error e =>
      rw [hless] at hdone
      cases hdone rfl
    | ok less => rfl

/-- **A refused attenuation changes nothing** exactly where it leaves no record open. -/
theorem refused_undisturbed_iff (ht : Dirs.Tidy w)
    (halloc : ∀ a ∈ env.alloc, w.okmFromSnapshot a = false)
    {e : Errno} (h : (w.okmPreopenAttenuate me fs env name flags record).result = .error e) :
    w.Undisturbed (w.okmPreopenAttenuate me fs env name flags record).port ↔
      ¬ LeavesRecord w me fs env name flags record := by
  have hport : (w.okmPreopenAttenuate me fs env name flags record).port =
      w.recorded me fs env name flags record := by
    rcases okmPreopenAttenuate_cases w me fs env name flags record with
      ⟨-, hport⟩ | ⟨p, less, -, hok, -⟩
    · exact hport
    · rw [h] at hok
      cases hok
  rw [hport]
  constructor
  · rintro hsame ⟨hopens, hok, -⟩
    rw [recorded_of_opensRecord hopens] at hsame
    exact fd_doOpenat_ne ht hok hsame.fd
  · intro hleaves
    have hplaces : (w.recorded me fs env name flags record).places = w.places :=
      places_recorded halloc
    refine ⟨congrArg Prod.fst hplaces, congrArg (fun c => c.2.1) hplaces,
      congrArg (fun c => c.2.2) hplaces, ?_⟩
    by_cases hopens : w.OpensRecord fs name flags
    · rw [recorded_of_opensRecord hopens]
      cases hr : (w.doOpenat me env atFdcwd record recordFlags).result with
      | error e => exact (clean_doOpenat ht.settled me env atFdcwd record recordFlags e hr).1
      | ok fd =>
        have hok := result_of_not_leavesRecord hopens (by rw [hr]; rfl) hleaves
        rw [h] at hok
        cases hok
    · rw [recorded, if_neg hopens]

end PortState

/-! ## What every call keeps -/

namespace Rights

/-- The invariant: a supplied directory of an attenuated name is of the account, and so is the
working directory beneath it. -/
structure Inv (s : Rights) : Prop where
  placed : Dirs.Placed s.dirs
  pre : ∀ r ∈ s.lessened, ∀ p ∈ s.port.pre, p.name = r.name → p.dir ∈ r.lesser
  work : ∀ r ∈ s.lessened, s.port.Under r.name s.port.cwd → s.port.cwdDir ∈ r.lesser

theorem inv_start (me : Context) (init : Start) : Inv (start me init) :=
  ⟨Dirs.placed_start me init, nofun, nofun⟩

variable {me : Context} {s : Rights}

/-- Beneath a supplied directory the working directory's handle is held. -/
theorem Inv.cwd_held (h : Inv s) {name abs : Text} (hunder : s.port.Under name abs) :
    s.port.cwdDir ∈ s.dirs.held := by
  refine h.placed.cwd.resolve_right fun hnil => ?_
  obtain ⟨p, hp, -⟩ := hunder.exists_supplied
  rw [show s.port.pre = [] from hnil] at hp
  cases hp

/-- What a call leaves, where it obtained what was not held: the supplied directories stay as they
were, and it remains to show it of the working directory. -/
theorem Inv.afterDir (h : Inv s) {l : DirCall} (hplaced : Dirs.Placed (s.afterDir me l).dirs)
    (hpre : (l.outcome me s.port).port.pre = s.port.pre)
    (hfresh : ∀ x ∈ (l.outcome me s.port).obtained.filterMap Resource.dirHandle, x ∉ s.dirs.held)
    (hwork : ∀ r ∈ s.lessened, ∀ r' : Lessened, r'.name = r.name →
      (∀ x ∈ r.lesser, x ∈ s.dirs.held → x ∈ r'.lesser) →
      (∀ b, l.through s.port = some b → b ∈ s.dirs.held → b ∈ r.lesser →
        ∀ x ∈ (l.outcome me s.port).obtained.filterMap Resource.dirHandle, x ∈ r'.lesser) →
      s.port.Under r.name (l.outcome me s.port).port.cwd →
      (l.outcome me s.port).port.cwdDir ∈ r'.lesser) : Inv (s.afterDir me l) := by
  have hpre' : (s.afterDir me l).port.pre = s.port.pre := hpre
  refine ⟨hplaced, fun r' hr' p hp hname => ?_, fun r' hr' hunder => ?_⟩
  · obtain ⟨r, hr, hsame, hkeep, -⟩ := mem_noteOpened hr'
    rw [hpre'] at hp
    refine hkeep _ (h.pre r hr p hp (hname.trans hsame)) fun hgot => ?_
    exact hfresh _ hgot (h.placed.supplied p hp)
  · obtain ⟨r, hr, hsame, hkeep, hnew⟩ := mem_noteOpened hr'
    refine hwork r hr r' hsame (fun x hx hheld => ?_) (fun b hb hheld hbr => ?_) ?_
    · exact hkeep x hx fun hgot => hfresh x hgot hheld
    · exact hnew b hb (fun hgot => hfresh b hgot hheld) hbr
    · rw [hsame] at hunder
      exact (under_congr (congrArg _ hpre') _ _).mp hunder

/-- **A call that leaves the working directory alone.** -/
theorem Inv.afterDir_of_places (h : Inv s) {l : DirCall}
    (heffect : Dirs.Effect s.dirs (s.afterDir me l).dirs)
    (hcwd : s.port.cwdDir ∈ s.dirs.held → s.port.cwdDir ∈ (s.afterDir me l).dirs.held)
    (hplaces : (l.outcome me s.port).port.places = s.port.places)
    (hfresh : ∀ x ∈ (l.outcome me s.port).obtained.filterMap Resource.dirHandle, x ∉ s.dirs.held) :
    Inv (s.afterDir me l) := by
  have hdir : (l.outcome me s.port).port.cwdDir = s.port.cwdDir :=
    congrArg (fun c => c.2.1) hplaces
  have hname : (l.outcome me s.port).port.cwd = s.port.cwd := congrArg (fun c => c.2.2) hplaces
  refine h.afterDir (h.placed.effect heffect fun hc => ?_) (congrArg Prod.fst hplaces) hfresh ?_
  · show (l.outcome me s.port).port.cwdDir ∈ _
    rw [hdir]
    exact hcwd hc
  · intro r hr r' hsame hkeep hnew hunder
    rw [hname] at hunder
    rw [hdir]
    exact hkeep _ (h.work r hr hunder) (h.cwd_held hunder)

theorem Inv.openat (h : Inv s) {env : Env} (henv : Dirs.MayAnswer s.dirs env) (dirfd : Int)
    (path : Option Text) (flags : ℕ) : Inv (s.afterDir me (.openat env dirfd path flags)) := by
  have hgrows := Dirs.grows_openat h.placed.tidy henv me dirfd path flags
  refine h.afterDir_of_places hgrows.toEffect (hgrows.held ·) ?_ fun x hx => ?_
  · exact places_doOpenat s.port me env henv.2 dirfd path flags
  · have hopen := openDir_of_obtained_doOpenat hx
    exact (henv.1 x (by rw [hopen]; rfl)).2

theorem Inv.close (h : Inv s) {fd : Int} (hr : s.Renews me (.dir (.close fd))) :
    Inv (s.afterDir me (.close fd)) := by
  refine h.afterDir_of_places (Dirs.effect_close h.placed.tidy me fd) hr
    (places_doClose s.port me fd) fun x hx => ?_
  have hobt : (s.port.doClose me fd).obtained = [] := by
    unfold doClose
    cases s.port.okmDescOf fd <;> rfl
  rw [show (DirCall.outcome me s.port (.close fd)).obtained = [] from hobt] at hx
  cases hx

theorem Inv.afterDir_of_port (h : Inv s) {l : DirCall} (hport : (l.outcome me s.port).port = s.port)
    (hfresh : ∀ x ∈ (l.outcome me s.port).obtained.filterMap Resource.dirHandle, x ∉ s.dirs.held) :
    Inv (s.afterDir me l) := by
  refine h.afterDir ?_ (by rw [hport]) hfresh ?_
  · refine h.placed.obtain ?_ (by rw [hport]; rfl) (by rw [hport]; rfl) (by rw [hport]; rfl) ?_
    · rw [hport]
      exact h.placed.tidy
    · rw [hport]
      exact h.placed.cwd.imp_right Or.inr
  · intro r hr r' hsame hkeep hnew hunder
    rw [hport] at hunder ⊢
    exact hkeep _ (h.work r hr hunder) (h.cwd_held hunder)

/-- **A call that moves the working directory** to a handle that is held, or that it obtained. -/
theorem Inv.afterDir_of_setCwd (h : Inv s) {l : DirCall} {x : Handle} {abs : Text}
    (hport : (l.outcome me s.port).port = s.port.setCwd x abs)
    (hx : x ∈ s.dirs.held ∨ x ∈ (l.outcome me s.port).obtained.filterMap Resource.dirHandle)
    (hfresh : ∀ x ∈ (l.outcome me s.port).obtained.filterMap Resource.dirHandle, x ∉ s.dirs.held)
    (hthrough : ∀ r ∈ s.lessened, s.port.Under r.name (s.port.setCwd x abs).cwd →
      ∃ b ∈ r.lesser, b ∈ s.dirs.held ∧ l.through s.port = some b ∧
        (x = b ∨ x ∈ (l.outcome me s.port).obtained.filterMap Resource.dirHandle)) :
    Inv (s.afterDir me l) := by
  refine h.afterDir ?_ (by rw [hport]; rfl) hfresh ?_
  · refine h.placed.obtain ?_ (by rw [hport]; rfl) (by rw [hport]; rfl) (by rw [hport]; rfl) ?_
    · rw [hport]
      exact ⟨h.placed.tidy.exact, h.placed.tidy.settled⟩
    · rw [hport]
      exact hx.imp_right Or.inl
  · intro r hr r' hsame hkeep hnew hunder
    rw [hport] at hunder ⊢
    obtain ⟨b, hb, hheld, hth, rfl | hgot⟩ := hthrough r hr hunder
    · exact hkeep _ hb hheld
    · exact hnew b hth hheld hb x hgot

theorem Inv.chdir (h : Inv s) {env : Env} (henv : Dirs.MayAnswer s.dirs env) (path : Option Text) :
    Inv (s.afterDir me (.chdir env path)) := by
  have hout : DirCall.outcome me s.port (.chdir env path) = s.port.okmChdir env atFdcwd path := rfl
  have hfail : ∀ e, s.port.okmChdir env atFdcwd path = s.port.fail e →
      Inv (s.afterDir me (.chdir env path)) := by
    intro e he
    refine h.afterDir_of_port (by rw [hout, he]; rfl) fun x hx => ?_
    rw [hout, he] at hx
    cases hx
  cases path with
  | none => exact hfail .enotdir rfl
  | some path =>
    cases hr : s.port.okmResolve atFdcwd (some path) false with
    | error e => exact hfail e (by simp [okmChdir, hr])
    | ok at_ =>
      cases ho : env.openDir with
      | error e => exact hfail (okmErrno e) (by simp [okmChdir, hr, ho])
      | ok target =>
        have fresh := (henv.1 target (by rw [ho]; rfl)).2
        cases hj : (if rootLength path ≠ 0 then join [] path okmMaxPath
            else join s.port.cwd path okmMaxPath) with
        | error e =>
          have hport : s.port.okmChdir env atFdcwd (some path) =
              ⟨s.port, .error .enametoolong, [.dir target]⟩ := by
            simp only [okmChdir, hr, ho]
            rw [hj]
          refine h.afterDir_of_port (by rw [hout, hport]) fun x hx => ?_
          rw [hout, hport] at hx
          obtain rfl : x = target := by simpa [Resource.dirHandle] using hx
          exact fresh
        | ok abs =>
          have hport : s.port.okmChdir env atFdcwd (some path) =
              ⟨s.port.setCwd target abs, .ok 0, [.dir target]⟩ := by
            simp only [okmChdir, hr, ho]
            rw [hj]
          have hgot : ∀ x, x ∈ (s.port.okmChdir env atFdcwd (some path)).obtained.filterMap
              Resource.dirHandle ↔ x = target := by
            intro x
            rw [hport]
            simp [Resource.dirHandle]
          refine h.afterDir_of_setCwd (by rw [hout, hport]) (Or.inr ((hgot target).mpr rfl))
            (fun x hx => (hgot x).mp hx ▸ fresh) fun r hmem hunder => ?_
          obtain ⟨base, hbase, hcwd⟩ := cwd_setCwd_of_resolve hr hj target
          rw [hcwd] at hunder
          obtain ⟨p, hp, hname, hdir⟩ := base_of_under hbase hr hunder
          refine ⟨p.dir, h.pre r hmem p hp hname, h.placed.supplied p hp, ?_,
            Or.inr ((hgot target).mpr rfl)⟩
          rw [DirCall.through, hr, ← hdir]
          rfl

theorem Inv.fchdir (h : Inv s) {env : Env} (henv : Dirs.MayAnswer s.dirs env) {fd : Int}
    (hsince : s.Since fd (s.entered fd)) : Inv (s.afterDir me (.fchdir env fd)) := by
  have hout : DirCall.outcome me s.port (.fchdir env fd) = s.port.okmChdir env fd none := rfl
  have hfail : ∀ e, s.port.okmChdir env fd none = s.port.fail e →
      Inv (s.afterDir me (.fchdir env fd)) := by
    intro e he
    refine h.afterDir_of_port (by rw [hout, he]; rfl) fun x hx => ?_
    rw [hout, he] at hx
    cases hx
  cases hd : s.port.okmDescOf fd with
  | none => exact hfail .enotdir (by simp [okmChdir, hd])
  | some d =>
    by_cases hkind : (s.port.desc d).kind = .dir
    · cases hn : s.port.dirName (s.port.desc d) with
      | none => exact hfail .enomem (by simp [okmChdir, hd, hkind, hn])
      | some name =>
        have hheld : (s.port.desc d).dir ∈ s.dirs.held :=
          (h.placed.desc d _ (by rw [Desc.dirHeld]; exact if_pos hkind)).1
        have hthrough : DirCall.through s.port (.fchdir env fd) = some (s.port.desc d).dir := by
          rw [DirCall.through, hd]
          rfl
        -- the name does not depend on the handle
        have hbase : ∀ x, ∀ r ∈ s.lessened, s.port.Under r.name
            (s.port.setCwd x (copyStr name name.length okmMaxPath).1).cwd →
            (s.port.desc d).dir ∈ r.lesser := by
          intro x r hr hunder
          refine hsince d hd _ ?_ r hr hunder
          rw [entered, hd, Option.bind_some, hn]
          rfl
        cases ho : env.openDir with
        | error e =>
          have hport : s.port.okmChdir env fd none =
              ⟨s.port.setCwd (s.port.desc d).dir (copyStr name name.length okmMaxPath).1, .ok 0,
                []⟩ := by
            simp [okmChdir, hd, hkind, hn, ho]
          refine h.afterDir_of_setCwd (by rw [hout, hport]) (Or.inl hheld) (fun x hx => ?_)
            fun r hr hunder => ⟨_, hbase _ r hr hunder, hheld, hthrough, Or.inl rfl⟩
          rw [hout, hport] at hx
          cases hx
        | ok own =>
          have hport : s.port.okmChdir env fd none =
              ⟨s.port.setCwd own (copyStr name name.length okmMaxPath).1, .ok 0, [.dir own]⟩ := by
            simp [okmChdir, hd, hkind, hn, ho]
          have hgot : ∀ x, x ∈ (s.port.okmChdir env fd none).obtained.filterMap
              Resource.dirHandle ↔ x = own := by
            intro x
            rw [hport]
            simp [Resource.dirHandle]
          refine h.afterDir_of_setCwd (by rw [hout, hport]) (Or.inr ((hgot own).mpr rfl))
            (fun x hx => ?_) fun r hr hunder =>
              ⟨_, hbase _ r hr hunder, hheld, hthrough, Or.inr ((hgot own).mpr rfl)⟩
          rw [(hgot x).mp hx]
          exact (henv.1 own (by rw [ho]; rfl)).2
    · exact hfail .enotdir (by simp [okmChdir, hd, hkind])

theorem held_attenuated (s : Rights) (name : Text) (old less : Handle) :
    (s.attenuated name old less).dirs.held = insert less s.dirs.held :=
  Traffic.holding_got _ _

/-- A lesser handle, which was not held, takes the place of a supplied one. -/
theorem seated_attenuated (h : Dirs.Seated s.dirs) (name : Text) (old : Handle) {less : Handle}
    (hfresh : less ∉ s.dirs.held) : Dirs.Seated (s.attenuated name old less).dirs := by
  refine ⟨⟨h.tidy.exact, h.tidy.settled⟩, fun q hq => ?_, fun d x hd => ?_, h.apart⟩
  · rw [held_attenuated]
    rcases mem_lessen hq with hq | rfl
    · exact Finset.mem_insert_of_mem (h.supplied q hq)
    · exact Finset.mem_insert_self _ _
  · obtain ⟨hx, hne⟩ := h.desc d x hd
    rw [held_attenuated]
    refine ⟨Finset.mem_insert_of_mem hx, fun q hq => ?_⟩
    rcases mem_lessen hq with hq | rfl
    · exact hne q hq
    · exact fun (hless : less = x) => hfresh (hless ▸ hx)

/-- **An attenuation**, of the one directory of the name, and with the working directory's handle
that one or its name elsewhere. -/
theorem Inv.attenuated (h : Inv s) {name : Text} {p : Preopen} {less : Handle}
    (hp : suppliedAs name s.port.pre = some p) (hfresh : less ∉ s.dirs.held)
    (honce : (s.port.pre.filter fun p => p.name = name).length ≤ 1)
    (hcwd : s.port.Under name s.port.cwd → s.port.cwdDir = p.dir) :
    Inv (s.attenuated name p.dir less) := by
  obtain ⟨hmem, hname⟩ := name_of_suppliedAs hp
  have hkept : ∀ x ∈ s.dirs.held, x ≠ less := fun x hx hxl => hfresh (hxl ▸ hx)
  have hunder : ∀ n abs, (s.attenuated name p.dir less).port.Under n abs ↔ s.port.Under n abs :=
    under_congr (map_name_lessen name less s.port.pre)
  have hdir : (s.attenuated name p.dir less).port.cwdDir =
      if s.port.cwdDir = p.dir then less else s.port.cwdDir := rfl
  -- what the accounts had before
  have hold : ∀ r' ∈ (s.attenuated name p.dir less).lessened,
      (∃ r ∈ s.lessened, r' = r.opened p.dir less) ∨ r' = ⟨name, [less]⟩ := by
    intro r' hr'
    rcases List.mem_append.mp hr' with hr' | hr'
    · obtain ⟨r, hr, rfl⟩ := List.mem_map.mp hr'
      exact Or.inl ⟨r, hr, rfl⟩
    · exact Or.inr (List.mem_singleton.mp hr')
  refine ⟨⟨seated_attenuated h.placed.toSeated name p.dir hfresh, Or.inl ?_⟩,
    fun r' hr' q hq hqname => ?_, fun r' hr' hw => ?_⟩
  · rw [held_attenuated]
    show (if s.port.cwdDir = p.dir then less else s.port.cwdDir) ∈ _
    split_ifs
    · exact Finset.mem_insert_self _ _
    · refine Finset.mem_insert_of_mem (h.placed.cwd.resolve_right fun hnil => ?_)
      rw [show s.port.pre = [] from hnil] at hmem
      cases hmem
  · rcases hold r' hr' with ⟨r, hr, rfl⟩ | rfl
    · rcases mem_lessen hq with hq | rfl
      · exact Lessened.mem_opened_of_ne (h.pre r hr q hq hqname) (hkept _ (h.placed.supplied q hq))
      · exact Lessened.target_mem_opened (h.pre r hr p hmem (hname.trans hqname))
    · rw [dir_of_mem_lessen honce hq hqname]
      exact List.mem_singleton_self _
  · have hw' := (hunder _ _).mp hw
    rw [hdir]
    rcases hold r' hr' with ⟨r, hr, rfl⟩ | rfl
    · have hlesser := h.work r hr hw'
      split_ifs with hsame
      · exact Lessened.target_mem_opened (hsame ▸ hlesser)
      · exact Lessened.mem_opened_of_ne hlesser (hkept _ (h.cwd_held hw'))
    · rw [if_pos (hcwd hw')]
      exact List.mem_singleton_self _

section Attenuate

variable {fs : AttenuateEnv} {env : Env} {name : Text} {flags : ℕ} {record : Option Text}

theorem port_recording : (s.recording me fs env name flags record).port =
    s.port.recorded me fs env name flags record := by
  unfold recording recorded
  split_ifs <;> rfl

theorem Inv.recording (h : Inv s) (henv : Dirs.MayAnswer s.dirs env) :
    Inv (s.recording me fs env name flags record) := by
  unfold Rights.recording
  split_ifs
  · exact h.openat henv atFdcwd record recordFlags
  · exact h

/-- **The step is the call**: it leaves what is opened as the record, and where it succeeds a
directory that was not held in the place of the supplied one. -/
theorem step_attenuate {t : Rights}
    (h : step me s (.attenuate fs env name flags record) = some t) :
    Dirs.MayAnswer s.dirs env ∧
      t.port = (s.port.okmPreopenAttenuate me fs env name flags record).port ∧
      (t = s.recording me fs env name flags record ∧
          (∃ e, (s.port.okmPreopenAttenuate me fs env name flags record).result = .error e) ∨
        ∃ p less, suppliedAs name s.port.pre = some p ∧
          less ∉ (s.recording me fs env name flags record).dirs.held ∧
          (s.port.okmPreopenAttenuate me fs env name flags record).result = .ok 0 ∧
          t = (s.recording me fs env name flags record).attenuated name p.dir less) := by
  simp only [step] at h
  split_ifs at h with henv
  refine ⟨henv, ?_⟩
  rcases okmPreopenAttenuate_cases s.port me fs env name flags record with
    ⟨⟨e, he⟩, hport⟩ | ⟨p, less, hp, hok, hport⟩
  · rw [he] at h
    obtain rfl := Option.some.inj h
    exact ⟨port_recording.trans hport.symm, Or.inl ⟨rfl, e, he⟩⟩
  · have hless : suppliedAs name
        (s.port.okmPreopenAttenuate me fs env name flags record).port.pre = some ⟨less, name⟩ := by
      rw [hport]
      refine suppliedAs_lessen less (p := p) ?_
      rw [pre_recorded (w := s.port) henv.2]
      exact hp
    rw [hok, hp, hless] at h
    simp only at h
    split_ifs at h with hfresh
    obtain rfl := Option.some.inj h
    refine ⟨?_, Or.inr ⟨p, less, hp, hfresh.2, hok, rfl⟩⟩
    rw [hport, ← port_recording]
    rfl

theorem Inv.attenuate (h : Inv s) {t : Rights}
    (hr : s.Renews me (.attenuate fs env name flags record))
    (hstep : step me s (.attenuate fs env name flags record) = some t) : Inv t := by
  obtain ⟨henv, -, ⟨rfl, -⟩ | ⟨p, less, hp, hfresh, -, rfl⟩⟩ := step_attenuate hstep
  · exact h.recording henv
  · have hplaces : (s.recording me fs env name flags record).port.places = s.port.places := by
      rw [port_recording]
      exact places_recorded henv.2
    have hpre : (s.recording me fs env name flags record).port.pre = s.port.pre :=
      congrArg Prod.fst hplaces
    have hdir : (s.recording me fs env name flags record).port.cwdDir = s.port.cwdDir :=
      congrArg (fun c => c.2.1) hplaces
    have hcwd : (s.recording me fs env name flags record).port.cwd = s.port.cwd :=
      congrArg (fun c => c.2.2) hplaces
    refine (h.recording henv).attenuated ?_ hfresh ?_ fun hunder => ?_
    · rw [hpre]
      exact hp
    · rw [hpre]
      exact hr.1
    · rw [hcwd, under_congr (congrArg _ hpre)] at hunder
      rw [hdir]
      exact hr.2 hunder p hp

end Attenuate

theorem inv_step {t : Rights} {l : RightsCall} (h : Inv s)
    (hl : restrict (step me) (Renews me) s l = some t) : Inv t := by
  obtain ⟨hr, hstep⟩ := restrict_eq_some.mp hl
  cases l with
  | attenuate fs env name flags record => exact h.attenuate hr hstep
  | dir l =>
    obtain ⟨u, hu, rfl⟩ := Option.map_eq_some_iff.mp hstep
    cases l with
    | chdir env path =>
      simp only [Dirs.step] at hu
      split_ifs at hu with henv
      exact h.chdir henv path
    | fchdir env fd =>
      simp only [Dirs.step] at hu
      split_ifs at hu with henv
      exact h.fchdir henv hr
    | openat env dirfd path flags =>
      simp only [Dirs.step] at hu
      split_ifs at hu with henv
      exact h.openat henv dirfd path flags
    | close fd => exact h.close hr

theorem inv_of_renewed {init : Start}
    (h : Reachable (restrict (step me) (Renews me)) (start me init) s) : Inv s :=
  h.invariant (inv_start me init) fun _ _ _ hu hv => inv_step hu hv

/-! ## What a started program is given -/

/-- The directory `d` is the one of the handle `b`, or was opened through it, and `b` is of the
account of each directory that `d` is beneath. -/
def Given (s : Rights) (env : SpawnEnv) (b : Handle) (d : Preopen) : Prop :=
  OpenedThrough env b d.dir ∧ ∀ r ∈ s.lessened, s.port.Under r.name d.name → b ∈ r.lesser

variable {env : SpawnEnv}

/-- **One file action.** -/
theorem Inv.given_act (h : Inv s) {x : Spawn} {n : ℕ} {a : FileAction}
    (hsince : ∀ fd, a = .fchdir fd →
      s.Since fd (s.port.okmAbsolute fd (some here) okmMaxPath).toOption)
    (hx : (x.act s.port env n a).refused = none) {b : Handle}
    (hb : s.Given env b (x.directory s.port)) :
    s.Given env ((a.through s.port).getD b) ((x.act s.port env n a).directory s.port) := by
  rw [Spawn.directory_act hx]
  cases a with
  | dup2 srcfd fd => exact hb
  | openFile fd path oflag => exact hb
  | close fd => exact hb
  | chdir path =>
    obtain ⟨at_, d, hat, hd⟩ := Spawn.openDir_of_act_chdir hx
    have hto : FileAction.directory s.port env n (.chdir path) =
        some ⟨d, (s.port.okmAbsolute atFdcwd (some path) okmMaxPath).toOption.getD []⟩ := by
      simp [FileAction.directory, hat, hd, Except.toOption]
    have hthrough : FileAction.through s.port (.chdir path) = some at_.base := by
      simp [FileAction.through, hat, Except.toOption]
    rw [hto, hthrough]
    refine ⟨Or.inr ⟨n, at_.rel, hd⟩, fun r hr hunder => ?_⟩
    cases habs : s.port.okmAbsolute atFdcwd (some path) okmMaxPath with
    | error e =>
      rw [habs] at hunder
      exact absurd hunder (not_under_nil _ _)
    | ok abs =>
      rw [habs] at hunder
      obtain ⟨base, hbase, rfl, -⟩ := exists_joinedTo (by simpa [okmAbsolute] using habs)
      obtain ⟨p, hp, hname, hdir⟩ := base_of_under hbase hat hunder
      rw [Option.getD_some, hdir]
      exact h.pre r hr p hp hname
  | fchdir fd =>
    obtain ⟨d, y, hfd, -, hd⟩ := Spawn.openDir_of_act_fchdir hx
    have hto : FileAction.directory s.port env n (.fchdir fd) =
        some ⟨y, (s.port.okmAbsolute fd (some here) okmMaxPath).toOption.getD []⟩ := by
      simp [FileAction.directory, hfd, hd, Except.toOption]
    have hthrough : FileAction.through s.port (.fchdir fd) = some (s.port.desc d).dir := by
      simp [FileAction.through, hfd]
    rw [hto, hthrough]
    refine ⟨Or.inr ⟨n, here, hd⟩, fun r hr hunder => ?_⟩
    cases habs : s.port.okmAbsolute fd (some here) okmMaxPath with
    | error e =>
      rw [habs] at hunder
      exact absurd hunder (not_under_nil _ _)
    | ok abs =>
      rw [habs] at hunder
      refine hsince fd rfl d hfd abs ?_ r hr hunder
      rw [habs]
      rfl

/-- **The file actions**, from the `n`-th on. -/
theorem Inv.given_actAll (h : Inv s) {as : List FileAction} {x : Spawn} {n : ℕ}
    (hsince : ∀ fd, .fchdir fd ∈ as →
      s.Since fd (s.port.okmAbsolute fd (some here) okmMaxPath).toOption)
    (hx : (x.actAll s.port env n as).refused = none) {b : Handle}
    (hb : s.Given env b (x.directory s.port)) :
    s.Given env (runsThrough s.port b as) ((x.actAll s.port env n as).directory s.port) := by
  induction as generalizing x n b with
  | nil => exact hb
  | cons a as ih =>
    simp only [Spawn.actAll, if_pos (Spawn.refused_of_actAll hx)] at hx ⊢
    refine ih (fun fd hfd => hsince fd (List.mem_cons_of_mem _ hfd)) hx ?_
    refine h.given_act (fun fd hfd => hsince fd ?_) (Spawn.refused_of_actAll hx) hb
    rw [hfd]
    exact List.mem_cons_self ..

/-- **Attenuation takes effect** where the invariant holds. -/
theorem Inv.takesEffect (h : Inv s) : s.TakesEffect where
  resolves := by
    intro r hr dirfd path base emptyOk at_ hbase hresolve hunder
    obtain ⟨p, hp, hname, hdir⟩ := base_of_under hbase hresolve hunder
    rw [hdir]
    exact h.pre r hr p hp hname
  grants := by
    intro r hr env args fa q props bound unit hq hleads
    constructor
    · intro g hg hname
      -- what follows the directory the program runs in is supplied
      have hmem : g ∈ s.port.pre := by
        simp only [startProgram, grantsFor] at hg
        split_ifs at hg with hgrants hnil
        · cases hg
        · rw [Option.getD_some, grantLoop_eq, List.singleton_append, List.tail_cons] at hg
          exact List.mem_of_mem_filter (List.mem_of_mem_take hg)
        · cases hg
        · cases hg
      exact h.pre r hr g hmem hname
    · intro hunder
      obtain ⟨-, -, hprepared, at_, -, -, rfl⟩ := okmSpawnCommon_ok hq
      obtain ⟨hall, hheld⟩ := Spawn.actAll_of_prepare hprepared
      have hstart : s.Given env s.port.cwdDir ((Spawn.seed s.port).directory s.port) := by
        rw [Spawn.directory_seed]
        exact ⟨Or.inl rfl, h.work⟩
      have hgiven := h.given_actAll hleads hall hstart
      rw [← Spawn.directory_congr hheld] at hgiven
      have hwork : (Spawn.prepare s.port env fa).directory s.port =
          ⟨((Spawn.prepare s.port env fa).held.getD (s.port.cwdDir, s.port.cwd)).1,
            ((Spawn.prepare s.port env fa).held.getD (s.port.cwdDir, s.port.cwd)).2⟩ := by
        unfold Spawn.directory
        cases (Spawn.prepare s.port env fa).held <;> rfl
      rw [hwork] at hgiven
      exact ⟨_, hgiven.2 r hr hunder, rfl, hgiven.1⟩

/-- What an attenuation leaves: the account of the lesser handle where it returns zero, and what
there was where it returns -1, but for a record that it opened. -/
structure Answered (me : Context) (s t : Rights) (fs : AttenuateEnv) (env : Env) (name : Text)
    (flags : ℕ) (record : Option Text) : Prop where
  port : t.port = (s.port.okmPreopenAttenuate me fs env name flags record).port
  less : (s.port.okmPreopenAttenuate me fs env name flags record).result = .ok 0 →
    ∃ less, suppliedAs name t.port.pre = some ⟨less, name⟩ ∧ ⟨name, [less]⟩ ∈ t.lessened
  refused : ∀ e, (s.port.okmPreopenAttenuate me fs env name flags record).result = .error e →
    t.lessened.map Lessened.name = s.lessened.map Lessened.name ∧
      (s.port.Undisturbed t.port ↔ ¬ LeavesRecord s.port me fs env name flags record)

theorem names_noteOpened (base : Option Handle) (got : List Handle) (rs : List Lessened) :
    (noteOpened base got rs).map Lessened.name = rs.map Lessened.name := by
  cases base with
  | none => rfl
  | some b =>
    unfold noteOpened
    simp only
    induction got generalizing rs with
    | nil => rfl
    | cons g got ih =>
      rw [List.foldl_cons, ih, List.map_map]
      rfl

theorem Inv.answered (h : Inv s) {t : Rights} {fs : AttenuateEnv} {env : Env} {name : Text}
    {flags : ℕ} {record : Option Text}
    (hstep : step me s (.attenuate fs env name flags record) = some t) :
    Answered me s t fs env name flags record := by
  obtain ⟨henv, hport, hcases⟩ := step_attenuate hstep
  refine ⟨hport, fun hok => ?_, fun e he => ⟨?_, ?_⟩⟩
  · rcases hcases with ⟨-, e, he⟩ | ⟨p, less, hp, -, -, rfl⟩
    · rw [hok] at he
      cases he
    · refine ⟨less, ?_, List.mem_append_right _ (List.mem_singleton_self _)⟩
      refine suppliedAs_lessen less (p := p) ?_
      rw [port_recording, pre_recorded (w := s.port) henv.2]
      exact hp
  · rcases hcases with ⟨rfl, -⟩ | ⟨p, less, -, -, hok, -⟩
    · unfold Rights.recording
      split_ifs
      · exact names_noteOpened _ _ _
      · rfl
    · rw [he] at hok
      cases hok
  · rw [hport]
    exact refused_undisturbed_iff h.placed.tidy henv.2 he

/-- **Attenuation takes effect** in every run in which the directories beneath an attenuated one are
entered through it; and a refused one changes nothing, where it leaves no record open. -/
theorem takes_effect_while_renewed {init : Start}
    (h : Reachable (restrict (step me) (Renews me)) (start me init) s) :
    s.TakesEffect ∧ ∀ fs env name flags record t,
      step me s (.attenuate fs env name flags record) = some t →
        Answered me s t fs env name flags record :=
  ⟨(inv_of_renewed h).takesEffect, fun _ _ _ _ _ _ hstep => (inv_of_renewed h).answered hstep⟩

/-- An environment that attenuates any directory without a record, to the handle 90. -/
def attenuating : AttenuateEnv where
  dirAttenuate := some fun _ _ file => if file.isSome then .error .invalid else .ok 90
  attenuates := fun _ => true
  recorded := 4

/-- The root is attenuated, and then a directory beneath it is entered. -/
def attenuatesFirst : List RightsCall :=
  [.attenuate attenuating .granting ['/'] 1 none, .dir (.chdir .granting (some ['d']))]

/-- A program that is started then is given both directories with less. -/
theorem takes_effect_attenuatesFirst :
    ∃ s, Reachable (restrict (step 1) (Renews 1)) (start 1 .supplied) s ∧
      s.lessened.map (fun r => (r.name, r.lesser)) = [(['/'], [32, 90])] ∧
      s.port.pre = [⟨90, ['/']⟩, ⟨8, ['/', 'a']⟩] ∧ s.port.workingDirectory = ⟨32, ['/', 'd']⟩ ∧
      s.TakesEffect := by
  have hrun : (run (restrict (step 1) (Renews 1)) (start 1 .supplied) attenuatesFirst).map
      (fun s => (s.lessened.map (fun r => (r.name, r.lesser)), s.port.pre,
        s.port.workingDirectory)) =
      some ([(['/'], [32, 90])], [⟨90, ['/']⟩, ⟨8, ['/', 'a']⟩], ⟨32, ['/', 'd']⟩) := by
    decide +kernel
  obtain ⟨s, hs, hview⟩ := Option.map_eq_some_iff.mp hrun
  obtain ⟨hless, hpre, hwork⟩ := by simpa only [Prod.mk.injEq] using hview
  exact ⟨s, ⟨_, hs⟩, hless, hpre, hwork, (takes_effect_while_renewed ⟨_, hs⟩).1⟩

/-- The environment after it gave the handle 32. -/
def grantingNext : Env := { Env.granting with openDir := .ok 33 }

/-- A directory beneath the root is entered, and then the root is attenuated. -/
def attenuatesAfter : List RightsCall :=
  [.dir (.chdir .granting (some ['d'])), .attenuate attenuating grantingNext ['/'] 1 none]

/-- **A started program is given the former rights**: the handle of the directory it runs in was
opened through the former one. And where a record is wanted and the environment does not attenuate
with one, the refused call leaves it open. -/
theorem stale_directory_granted :
    ∃ s, Reachable (step 1) (start 1 .supplied) s ∧
      s.lessened.map (fun r => (r.name, r.lesser)) = [(['/'], [90])] ∧
      (∃ q, s.port.okmSpawnCommon .granting .plain [] = .ok q ∧ q.work = 32 ∧
        q.workName = ['/', 'd'] ∧
        (startProgram .full false false s.port.pre q).grants.bind List.head? =
          some ⟨32, ['/', 'd']⟩) ∧
      ¬ s.TakesEffect ∧
      ∃ e, (s.port.okmPreopenAttenuate 1 attenuating grantingNext ['/'] 4 (some ['r'])).result =
          .error e ∧
        ¬ s.port.Undisturbed
          (s.port.okmPreopenAttenuate 1 attenuating grantingNext ['/'] 4 (some ['r'])).port := by
  have hrun : (run (step 1) (start 1 .supplied) attenuatesAfter).map
      (fun s => (s.lessened.map (fun r => (r.name, r.lesser)), s.port.cwdDir,
        decide (s.port.Under ['/'] ['/', 'd']))) = some ([(['/'], [90])], 32, true) := by
    decide +kernel
  obtain ⟨s, hs, hview⟩ := Option.map_eq_some_iff.mp hrun
  obtain ⟨hless, hcwd, hunder⟩ := by simpa only [Prod.mk.injEq, decide_eq_true_eq] using hview
  have hspawn : (s.port.okmSpawnCommon .granting .plain []).toOption.map (fun q => (q.work,
      q.workName, (startProgram .full false false s.port.pre q).grants.bind List.head?)) =
      some (32, ['/', 'd'], some ⟨32, ['/', 'd']⟩) :=
    observe hs (fun s => (s.port.okmSpawnCommon .granting .plain []).toOption.map (fun q => (q.work,
      q.workName, (startProgram .full false false s.port.pre q).grants.bind List.head?)))
      (by decide +kernel)
  have hfail : (s.port.okmPreopenAttenuate 1 attenuating grantingNext ['/'] 4 (some ['r'])).result =
      .error .einval :=
    observe hs (fun s => (s.port.okmPreopenAttenuate 1 attenuating grantingNext ['/'] 4
      (some ['r'])).result) (by decide +kernel)
  have hfree : (s.port.okmDescOf 3).isSome = false :=
    observe hs (fun s => (s.port.okmDescOf 3).isSome) (by decide +kernel)
  have htaken : ((s.port.okmPreopenAttenuate 1 attenuating grantingNext ['/'] 4
      (some ['r'])).port.okmDescOf 3).isSome = true :=
    observe hs (fun s => ((s.port.okmPreopenAttenuate 1 attenuating grantingNext ['/'] 4
      (some ['r'])).port.okmDescOf 3).isSome) (by decide +kernel)
  obtain ⟨q, hq, hdata⟩ := Option.map_eq_some_iff.mp hspawn
  simp only [Prod.mk.injEq] at hdata
  obtain ⟨hwork, hname, hgrant⟩ := hdata
  have hok := eq_ok_of_toOption hq
  refine ⟨s, ⟨_, hs⟩, hless, ⟨q, hok, hwork, hname, hgrant⟩, fun heffect => ?_, _, hfail,
    fun hsame => ?_⟩
  · obtain ⟨r, hr, hrname⟩ : ∃ r ∈ s.lessened, (r.name, r.lesser) = (['/'], [90]) :=
      List.mem_map.mp (hless ▸ List.mem_singleton_self _)
    obtain ⟨hname', hlesser⟩ := Prod.mk.inj hrname
    have hgrants := heffect.grants r hr .granting .plain [] q .full false false hok nofun
    obtain ⟨base, hbase, rfl, -⟩ := hgrants.2 (by rw [hname', hname]; exact hunder)
    rw [hlesser,
      show runsThrough s.port s.port.cwdDir (FileActions.walk []) = 32 from hcwd] at hbase
    cases hbase with
    | tail _ h => cases h
  · have hdesc : (s.port.okmPreopenAttenuate 1 attenuating grantingNext ['/'] 4
        (some ['r'])).port.okmDescOf 3 = s.port.okmDescOf 3 := by
      unfold okmDescOf
      rw [hsame.fd]
    rw [hdesc, hfree] at htaken
    cases htaken

end Rights

end OpenkalMusl
