import OpenkalMusl.Spawn.FileActions
import OpenkalMusl.Transition.History

/-!
# What a spawn gives back

`__okm_spawn_common` whole: it takes the table's lock, opens what its file actions name, and leaves
by one of two exits, each of which closes the files it opened and the directory it holds. A
directory that another file action replaces is closed where it is replaced.

A handle that the environment gives again once it was closed is counted: it is closed as often as it
was opened, and never where none of it is open.

## Main definitions

* `SpawnMoment`: what a call does, in order
* `PortState.spawnCommon`: the call, with what it did
* `Spawn.kept`: what its variables hold

## Main results

* `spawnCommon_result`: what the call answers, as what it asks the start for
* `spawn_gives_back`: a call closes what it opened, in order, and releases what it locked
-/

namespace OpenkalMusl

open History

/-- What a call does. -/
inductive SpawnMoment where
  | locked
  | unlocked
  | did (e : SpawnEvent)
  | refused (e : Errno)
  /-- The start was attempted, in a directory a file action named or in the caller's. -/
  | started (work : Option Handle)
  deriving DecidableEq

/-- What a call answers, and what it did. -/
structure SpawnRun where
  result : Except Errno ℕ
  moments : List SpawnMoment

namespace Spawn

/-- What the variables hold, in the order in which both exits close it. -/
def kept (s : Spawn) : List Resource :=
  s.opened.map .file ++ s.held.toList.map fun h => .dir h.1

/-- What is done under the lock before the start, or before it is refused. -/
def prepared (s : Spawn) : List SpawnMoment := .locked :: s.log.map .did

/-- Both exits: what the variables hold is closed. -/
def giveBack (s : Spawn) : List SpawnMoment := s.kept.map fun r => .did (.closed r)

end Spawn

/-- `__okm_spawn_common`. What the start answers, and the number the program is recorded under if
there is room for it, are parameters. -/
def PortState.spawnCommon (w : PortState) (env : SpawnEnv) (start : Request → Option KalError)
    (record : Option ℕ) (args : SpawnArgs) (fa : FileActions) : SpawnRun :=
  if args.res = false ∨ args.path = none then ⟨.error .einval, []⟩
  else if args.attr.any SpawnAttr.refused then ⟨.error .enosys, []⟩
  else match w.okmResolve atFdcwd args.path false with
    | .error e => ⟨.error e, []⟩
    | .ok at_ =>
      match startable env at_ with
      | .error e => ⟨.error e, []⟩
      | .ok () =>
        if args.argv.length ≥ okmSpawnMax ∨ args.envp.length ≥ okmSpawnMax then ⟨.error .e2big, []⟩
        else
          -- from here to the end of the file actions the table's lock is held
          let s := Spawn.prepare w env fa
          match s.refused with
          | some e => ⟨.error e, s.prepared ++ .refused e :: s.giveBack ++ [.unlocked]⟩
          | none =>
            let work := s.held.getD (w.cwdDir, w.cwd)
            -- the start is made before what was opened for it is closed
            let q : Request := ⟨at_.base, at_.rel, work.1, work.2, args.argv, args.envp, s.streams,
              s.nullAt, s.nullFileAt⟩
            let moments :=
              s.prepared ++ .started (s.held.map Prod.fst) :: s.giveBack ++ [.unlocked]
            match start q with
            | some e => ⟨.error (okmErrno e), moments⟩
            | none =>
              -- the program is recorded under the lock, taken once more
              ⟨match record with
                | none => .error .eagain
                | some pid => .ok pid, moments ++ [.locked, .unlocked]⟩

/-- **What the call answers**: what it is refused with before the start, or what the start and the
record answer. -/
theorem spawnCommon_result (w : PortState) (env : SpawnEnv) (start : Request → Option KalError)
    (record : Option ℕ) (args : SpawnArgs) (fa : FileActions) :
    (w.spawnCommon env start record args fa).result =
      match w.okmSpawnCommon env args fa with
      | .error e => .error e
      | .ok q =>
        match start q with
        | some e => .error (okmErrno e)
        | none =>
          match record with
          | none => .error .eagain
          | some pid => .ok pid := by
  unfold PortState.spawnCommon PortState.okmSpawnCommon
  by_cases hplace : args.res = false ∨ args.path = none
  · rw [if_pos hplace, if_pos hplace]
  · rw [if_neg hplace, if_neg hplace]
    by_cases hattr : (args.attr.any SpawnAttr.refused) = true
    · rw [if_pos hattr, if_pos hattr]
    · rw [if_neg hattr, if_neg hattr]
      cases w.okmResolve atFdcwd args.path false with
      | error e => rfl
      | ok at_ =>
        dsimp only
        cases startable env at_ with
        | error e => rfl
        | ok u =>
          dsimp only
          by_cases hbig : args.argv.length ≥ okmSpawnMax ∨ args.envp.length ≥ okmSpawnMax
          · rw [if_pos hbig, if_pos hbig]
          · rw [if_neg hbig, if_neg hbig]
            cases (Spawn.prepare w env fa).refused with
            | some e => rfl
            | none =>
              dsimp only
              cases start _ with
              | some e => rfl
              | none => rfl

/-! ## What is promised -/

/-- The start was attempted, or refused. -/
def Ended (before : List SpawnMoment) : Prop :=
  (∃ e, .refused e ∈ before) ∨ ∃ work, .started work ∈ before

/-- The lock is held. -/
def LockHeld (before : List SpawnMoment) : Prop :=
  before.count .locked = before.count .unlocked + 1

/-- Something is open that was opened by the call. -/
def IsOpen (before : List SpawnMoment) (r : Resource) : Prop :=
  before.count (.did (.closed r)) < before.count (.did (.opened r))

/-- A directory that was open is replaced: another was opened just now. -/
def Replaced (before : List SpawnMoment) (d : Handle) : Prop :=
  ∃ earlier d', before = earlier ++ [.did (.opened (.dir d'))] ∧ IsOpen earlier (.dir d)

/-- What is promised of a moment, with those before it. -/
def SpawnOrderly (before : List SpawnMoment) : SpawnMoment → Prop
  | .locked => before.count .locked = before.count .unlocked
  | .unlocked => LockHeld before
  | .did (.opened _) => LockHeld before
  | .did (.closed r) => LockHeld before ∧ IsOpen before r ∧
      (∀ f, r = .file f → Ended before) ∧ ∀ d, r = .dir d → Ended before ∨ Replaced before d
  | .refused _ => LockHeld before
  | .started work => LockHeld before ∧ ∀ d ∈ work, IsOpen before (.dir d)

/-- The moment at which a file is opened. -/
def SpawnMoment.opensFile : SpawnMoment → Bool
  | .did (.opened (.file _)) => true
  | _ => false

/-- **What is promised of a spawn**: whatever it opened it closed as often; each thing it closes is
open then, a file only once the start was attempted or refused, and a directory only then or where
another replaces it; the one the program is started in is open; no more files are opened than there
is room for; and the lock is released as often as it was taken. -/
structure GivesBack (moments : List SpawnMoment) : Prop where
  closed : ∀ r, moments.count (.did (.closed r)) = moments.count (.did (.opened r))
  orderly : Always SpawnOrderly moments
  bounded : moments.countP SpawnMoment.opensFile ≤ okmSpawnMaxOpen
  unlocked : moments.count .unlocked = moments.count .locked

/-! ## Up to the start -/

namespace Spawn

/-- What holds of a call under way: what it opened and did not close is what its variables hold. -/
structure Tracks (s : Spawn) : Prop where
  orderly : Always SpawnOrderly s.prepared
  counted : ∀ r, s.prepared.count (.did (.opened r)) =
    s.prepared.count (.did (.closed r)) + s.kept.count r
  bounded : s.prepared.countP SpawnMoment.opensFile = s.opened.length
  room : s.opened.length ≤ okmSpawnMaxOpen

variable {w : PortState} {env : SpawnEnv} {s : Spawn}

theorem lockHeld_prepared (s : Spawn) : LockHeld s.prepared := by
  have hcount : ∀ m : SpawnMoment, (∀ e, m ≠ .did e) → (s.log.map SpawnMoment.did).count m = 0 := by
    intro m hm
    refine List.count_eq_zero.mpr fun hmem => ?_
    obtain ⟨e, -, rfl⟩ := List.mem_map.mp hmem
    exact hm e rfl
  unfold LockHeld prepared
  simp [hcount]

/-- What leaves the record and the variables of what is open is tracked. -/
theorem Tracks.congr {s' : Spawn} (h : s.Tracks) (hlog : s'.log = s.log)
    (hopened : s'.opened = s.opened) (hheld : s'.held = s.held) : s'.Tracks := by
  have hprepared : s'.prepared = s.prepared := by rw [prepared, prepared, hlog]
  have hkept : s'.kept = s.kept := by rw [kept, kept, hopened, hheld]
  exact ⟨by rw [hprepared]; exact h.orderly, by rw [hprepared, hkept]; exact h.counted,
    by rw [hprepared, hopened]; exact h.bounded, by rw [hopened]; exact h.room⟩

theorem tracks_empty : ({} : Spawn).Tracks where
  orderly := by
    have hlocked : Always SpawnOrderly ([] ++ [.locked]) := always_snoc.mpr ⟨always_nil _, rfl⟩
    exact hlocked
  counted r := by simp [prepared, kept]
  bounded := rfl
  room := Nat.zero_le _

/-- **A file that is opened** where there is room for it. -/
theorem Tracks.keepFile (h : s.Tracks) (hroom : s.opened.length < okmSpawnMaxOpen) (f : Handle) :
    (s.keepFile f).Tracks := by
  have hprepared : (s.keepFile f).prepared = s.prepared ++ [.did (.opened (.file f))] := by
    simp [prepared, Spawn.keepFile]
  refine ⟨?_, fun r => ?_, ?_, ?_⟩
  · rw [hprepared]
    exact always_snoc.mpr ⟨h.orderly, s.lockHeld_prepared⟩
  · have hcounted := h.counted r
    have hkept : (s.keepFile f).kept.count r = s.kept.count r + [Resource.file f].count r := by
      simp only [kept, Spawn.keepFile, List.map_append, List.count_append, List.map_cons,
        List.map_nil]
      omega
    -- one more was opened of what is kept one more of
    have hsame : [SpawnMoment.did (.opened (.file f))].count (.did (.opened r)) =
        [Resource.file f].count r := by
      by_cases hr : r = .file f
      · simp [hr]
      · rw [List.count_eq_zero.mpr (by simpa using hr), List.count_eq_zero.mpr (by simpa using hr)]
    rw [hprepared, hkept, List.count_append, List.count_append, hsame]
    have hnone : [SpawnMoment.did (.opened (.file f))].count (.did (.closed r)) = 0 := by simp
    omega
  · rw [hprepared, List.countP_append, h.bounded]
    simp [Spawn.keepFile, SpawnMoment.opensFile]
  · simpa [Spawn.keepFile] using Nat.succ_le_of_lt hroom

/-- **A directory that is held**: the one held before is closed, with the other one open. -/
theorem Tracks.hold (h : s.Tracks) (d : Handle) (name : Text) : (s.hold d name).Tracks := by
  have hopen : Always SpawnOrderly (s.prepared ++ [.did (.opened (.dir d))]) :=
    always_snoc.mpr ⟨h.orderly, s.lockHeld_prepared⟩
  have hlock : LockHeld (s.prepared ++ [.did (.opened (.dir d))]) := by
    have hlock := s.lockHeld_prepared
    unfold LockHeld at hlock ⊢
    simpa using hlock
  have hone : ∀ r e, [SpawnMoment.did (.opened (.dir d))].count (.did (.closed r)) = 0 ∧
      [SpawnMoment.did (.closed e)].count (.did (.opened r)) = 0 := by simp
  have hsame : ∀ r e, [SpawnMoment.did (.opened e)].count (.did (.opened r)) = [e].count r ∧
      [SpawnMoment.did (.closed e)].count (.did (.closed r)) = [e].count r := by
    intro r e
    simp [List.count_singleton]
  cases hheld : s.held with
  | none =>
    have hprepared : (s.hold d name).prepared = s.prepared ++ [.did (.opened (.dir d))] := by
      simp [prepared, Spawn.hold, hheld]
    refine ⟨by rwa [hprepared], fun r => ?_, ?_, h.room⟩
    · have hcounted := h.counted r
      have hkept : (s.hold d name).kept.count r = s.kept.count r + [Resource.dir d].count r := by
        simp [kept, Spawn.hold, hheld]
      rw [hprepared, hkept, List.count_append, List.count_append, (hsame r _).1, (hone r r).1]
      omega
    · rw [hprepared, List.countP_append, h.bounded]
      rfl
  | some old =>
    have hprepared : (s.hold d name).prepared =
        s.prepared ++ [.did (.opened (.dir d))] ++ [.did (.closed (.dir old.1))] := by
      simp [prepared, Spawn.hold, hheld]
    have hkept : ∀ r, (s.hold d name).kept.count r + [Resource.dir old.1].count r =
        s.kept.count r + [Resource.dir d].count r := by
      intro r
      simp only [kept, Spawn.hold, hheld, Option.toList_some, List.count_append, List.map_cons,
        List.map_nil]
      omega
    -- it was held, so it is open, and the other one was opened just now
    have hold : IsOpen s.prepared (.dir old.1) := by
      have hcounted := h.counted (.dir old.1)
      have hpos : 0 < s.kept.count (.dir old.1) := by
        refine List.count_pos_iff.mpr (List.mem_append_right _ ?_)
        simp [hheld]
      unfold IsOpen
      omega
    have hstill : IsOpen (s.prepared ++ [.did (.opened (.dir d))]) (.dir old.1) := by
      unfold IsOpen at hold ⊢
      rw [List.count_append, List.count_append, (hone _ (.dir d)).1]
      omega
    refine ⟨?_, fun r => ?_, ?_, h.room⟩
    · rw [hprepared]
      refine always_snoc.mpr ⟨hopen, hlock, hstill, nofun, fun d' hd' => Or.inr ?_⟩
      cases hd'
      exact ⟨s.prepared, d, rfl, hold⟩
    · have hcounted := h.counted r
      have hkept := hkept r
      rw [hprepared, List.count_append, List.count_append, List.count_append, List.count_append,
        (hsame r _).1, (hone r (.dir old.1)).2, (hone r r).1, (hsame r (.dir old.1)).2]
      omega
    · rw [hprepared, List.countP_append, List.countP_append, h.bounded]
      rfl

theorem Tracks.refuse (h : s.Tracks) (e : Errno) : (s.refuse e).Tracks := h.congr rfl rfl rfl

theorem Tracks.placeNull (h : s.Tracks) (pos : Fin 3) : (s.placeNull pos).Tracks :=
  h.congr rfl rfl rfl

theorem Tracks.place (h : s.Tracks) (pos : Fin 3) (stream : Handle) :
    (s.place w pos stream).Tracks := by
  unfold Spawn.place
  dsimp only
  split_ifs
  · exact h.congr rfl rfl rfl
  · exact h.congr rfl rfl rfl
  · exact h.congr rfl rfl rfl

theorem Tracks.placeFrom (h : s.Tracks) (pos : Fin 3) (fd : Int) :
    (s.placeFrom w pos fd).Tracks := by
  unfold Spawn.placeFrom
  by_cases hnull : w.isNull fd = true
  · rw [if_pos hnull]
    exact h.placeNull pos
  · rw [if_neg hnull]
    cases w.streamForSpawn fd with
    | error e => exact h.refuse e
    | ok stream => exact h.place pos stream

/-- **A file action** is tracked. -/
theorem Tracks.act (h : s.Tracks) (n : ℕ) (a : FileAction) : (s.act w env n a).Tracks := by
  cases a with
  | close fd =>
    unfold Spawn.act
    dsimp only
    split_ifs
    · exact h
    · exact h.refuse _
  | dup2 srcfd fd =>
    unfold Spawn.act
    dsimp only
    cases position fd with
    | none => exact h.refuse _
    | some pos => exact h.placeFrom pos srcfd
  | openFile fd path oflag =>
    unfold Spawn.act
    dsimp only
    cases position fd with
    | none => exact h.refuse _
    | some pos =>
      dsimp only
      by_cases hnull : w.okmNullName atFdcwd (some path) = true
      · rw [if_pos hnull]
        exact h.placeNull pos
      · rw [if_neg hnull]
        by_cases hfull : s.opened.length ≥ okmSpawnMaxOpen
        · rw [if_pos hfull]
          exact h.refuse _
        · -- the one action that opens a file, and only while the array has room
          rw [if_neg hfull]
          cases w.okmResolve atFdcwd (some path) false with
          | error e => exact h.refuse e
          | ok at_ =>
            dsimp only
            cases env.openFile n at_.base at_.rel (okmOpenFlags oflag) with
            | error e => exact h.refuse _
            | ok f => exact (h.keepFile (not_le.mp hfull) f).place pos _
  | chdir path =>
    unfold Spawn.act
    dsimp only
    cases w.okmResolve atFdcwd (some path) false with
    | error e => exact h.refuse e
    | ok at_ =>
      dsimp only
      cases env.openDir n at_.base at_.rel with
      | error e => exact h.refuse _
      | ok d => exact h.hold d _
  | fchdir fd =>
    unfold Spawn.act
    dsimp only
    cases w.okmDescOf fd with
    | none => exact h.refuse _
    | some d =>
      dsimp only
      by_cases hkind : (w.desc d).kind ≠ .dir
      · rw [if_pos hkind]
        exact h.refuse _
      · rw [if_neg hkind]
        cases env.openDir n (w.desc d).dir here with
        | error e => exact h.refuse _
        | ok d => exact h.hold d _

/-- **File actions**, as many as there are and wherever one is refused. -/
theorem Tracks.actAll (h : s.Tracks) (n : ℕ) (as : List FileAction) :
    (s.actAll w env n as).Tracks := by
  induction as generalizing n s with
  | nil => exact h
  | cons a as ih =>
    unfold Spawn.actAll
    by_cases hrefused : s.refused = none
    · rw [if_pos hrefused]
      exact ih (h.act n a) (n + 1)
    · rw [if_neg hrefused]
      exact h

theorem Tracks.placeNullFile (h : s.Tracks) (stream : Handle) (poss : List (Fin 3)) :
    (placeNullFile w stream s poss).Tracks := by
  induction poss generalizing s with
  | nil => exact h
  | cons pos poss ih =>
    unfold Spawn.placeNullFile
    split_ifs
    · exact ih ((h.place pos stream).congr rfl rfl rfl)
    · exact ih h

theorem Tracks.nullFile (h : s.Tracks) (n : ℕ) : (s.nullFile w env n).Tracks := by
  unfold Spawn.nullFile
  by_cases hfull : s.opened.length ≥ okmSpawnMaxOpen
  · rw [if_pos hfull]
    exact h.refuse _
  · rw [if_neg hfull]
    cases w.okmResolve atFdcwd (some PortState.nullDevice) false with
    | error e => exact h.refuse e
    | ok at_ =>
      dsimp only
      cases env.openFile n at_.base at_.rel (okmOpenFlags oRdwr) with
      | error e => exact h.refuse _
      | ok f => exact (h.keepFile (not_le.mp hfull) f).placeNullFile _ _

theorem tracks_seed (w : PortState) : (seed w).Tracks := by
  have hfold : ∀ (poss : List (Fin 3)) (s : Spawn), s.Tracks →
      (poss.foldl (fun s pos => if s.refused = none then s.placeFrom w pos pos.val else s)
        s).Tracks := by
    intro poss
    induction poss with
    | nil => exact fun s h => h
    | cons pos poss ih =>
      intro s h
      refine ih _ ?_
      dsimp only
      split_ifs
      · exact h.placeFrom pos _
      · exact h
  exact hfold _ _ tracks_empty

/-- **All that is done before the start** is tracked. -/
theorem tracks_prepare (w : PortState) (env : SpawnEnv) (fa : FileActions) :
    (prepare w env fa).Tracks := by
  have hseed := tracks_seed w
  unfold prepare
  dsimp only
  have hacted : (if (seed w).refused = none then (seed w).actAll w env 0 fa.walk
      else seed w).Tracks := by
    split_ifs
    · exact hseed.actAll 0 _
    · exact hseed
  -- each state is forgotten once it is known to be tracked
  revert hacted
  generalize (if (seed w).refused = none then (seed w).actAll w env 0 fa.walk else seed w) = s
  intro hacted
  have hnull : (if s.refused = none ∧ (∃ pos, s.nullAt pos = true) ∧ env.nullStreams = false then
      s.nullFile w env fa.length else s).Tracks := by
    split_ifs
    · exact hacted.nullFile _
    · exact hacted
  revert hnull
  generalize (if s.refused = none ∧ (∃ pos, s.nullAt pos = true) ∧ env.nullStreams = false then
      s.nullFile w env fa.length else s) = t
  intro hnull
  split_ifs
  · exact hnull.refuse _
  · exact hnull

end Spawn

/-! ## The exits -/

/-- What is closed once the start was attempted or refused. -/
theorem always_giveBack {before : List SpawnMoment} {rs : List Resource}
    (h : Always SpawnOrderly before) (hlock : LockHeld before) (hended : Ended before)
    (hcounted : ∀ r, before.count (.did (.opened r)) =
      before.count (.did (.closed r)) + rs.count r) :
    Always SpawnOrderly (before ++ rs.map fun r => .did (.closed r)) := by
  induction rs generalizing before with
  | nil => simpa using h
  | cons r rs ih =>
    have hopen : IsOpen before r := by
      have hr := hcounted r
      rw [List.count_cons_self] at hr
      unfold IsOpen
      omega
    -- the close is of something open, and what is left is open still
    have hcons : before ++ (r :: rs).map (fun r => SpawnMoment.did (.closed r)) =
        before ++ [.did (.closed r)] ++ rs.map fun r => .did (.closed r) := by simp
    rw [hcons]
    refine ih (always_snoc.mpr ⟨h, hlock, hopen, fun _ _ => hended, fun _ _ => Or.inl hended⟩)
      ?_ ?_ fun r' => ?_
    · unfold LockHeld at hlock ⊢
      simpa using hlock
    · rcases hended with ⟨e, he⟩ | ⟨work, hwork⟩
      · exact Or.inl ⟨e, List.mem_append_left _ he⟩
      · exact Or.inr ⟨work, List.mem_append_left _ hwork⟩
    · have hr := hcounted r'
      rw [List.count_cons] at hr
      simp only [List.count_append, List.count_singleton, beq_iff_eq, reduceCtorEq,
        SpawnMoment.did.injEq, SpawnEvent.closed.injEq, if_false] at hr ⊢
      omega

namespace Spawn

variable {s : Spawn}

theorem count_giveBack_closed (s : Spawn) (r : Resource) :
    s.giveBack.count (.did (.closed r)) = s.kept.count r :=
  List.count_map_of_injective _ _
    (fun _ _ hab => SpawnEvent.closed.inj (SpawnMoment.did.inj hab)) _

/-- Nothing but closes is in what an exit gives back. -/
theorem count_giveBack_of_ne (s : Spawn) {m : SpawnMoment} (hm : ∀ r, m ≠ .did (.closed r)) :
    s.giveBack.count m = 0 := by
  refine List.count_eq_zero.mpr fun hmem => ?_
  obtain ⟨r, -, rfl⟩ := List.mem_map.mp hmem
  exact hm r rfl

theorem countP_giveBack (s : Spawn) : s.giveBack.countP SpawnMoment.opensFile = 0 := by
  refine List.countP_eq_zero.mpr fun m hm => ?_
  obtain ⟨r, -, rfl⟩ := List.mem_map.mp hm
  exact Bool.false_ne_true

/-- **An exit** closes what the variables hold, and releases the lock. -/
theorem Tracks.gives_back (h : s.Tracks) {end_ : SpawnMoment} (hend : SpawnOrderly s.prepared end_)
    (hended : Ended (s.prepared ++ [end_])) (hlock : end_ ≠ .locked ∧ end_ ≠ .unlocked)
    (hdid : ∀ e, end_ ≠ .did e) :
    GivesBack (s.prepared ++ end_ :: s.giveBack ++ [.unlocked]) := by
  have hsplit : s.prepared ++ end_ :: s.giveBack ++ [.unlocked] =
      s.prepared ++ [end_] ++ s.giveBack ++ [.unlocked] := by simp
  -- the start or the refusal opens, closes and locks nothing
  have hcount : ∀ m, m ≠ end_ → (s.prepared ++ [end_]).count m = s.prepared.count m := by
    intro m hm
    rw [List.count_append, List.count_singleton, if_neg (by simpa using hm.symm), Nat.add_zero]
  have hheld : LockHeld (s.prepared ++ [end_]) := by
    have hprepared := s.lockHeld_prepared
    unfold LockHeld at hprepared ⊢
    rwa [hcount _ hlock.1.symm, hcount _ hlock.2.symm]
  have hcounted : ∀ r, (s.prepared ++ [end_]).count (.did (.opened r)) =
      (s.prepared ++ [end_]).count (.did (.closed r)) + s.kept.count r := by
    intro r
    rw [hcount _ (hdid _).symm, hcount _ (hdid _).symm]
    exact h.counted r
  have horderly : Always SpawnOrderly (s.prepared ++ [end_] ++ s.giveBack) :=
    always_giveBack (always_snoc.mpr ⟨h.orderly, hend⟩) hheld hended hcounted
  have hlast : LockHeld (s.prepared ++ [end_] ++ s.giveBack) := by
    have hlocked : s.giveBack.count .locked = 0 := s.count_giveBack_of_ne (by simp)
    have hunlocked : s.giveBack.count .unlocked = 0 := s.count_giveBack_of_ne (by simp)
    unfold LockHeld at hheld ⊢
    simp only [List.count_append] at hheld ⊢
    omega
  rw [hsplit]
  refine ⟨fun r => ?_, always_snoc.mpr ⟨horderly, hlast⟩, ?_, ?_⟩
  · have hopened := hcounted r
    have hclosed := s.count_giveBack_closed r
    have hnone : s.giveBack.count (.did (.opened r)) = 0 := s.count_giveBack_of_ne (by simp)
    have hlater : [SpawnMoment.unlocked].count (.did (.closed r)) = 0 ∧
        [SpawnMoment.unlocked].count (.did (.opened r)) = 0 := by simp
    simp only [List.count_append] at hopened ⊢
    omega
  · have hends : [end_].countP SpawnMoment.opensFile = 0 := by
      cases end_ with
      | did e => exact absurd rfl (hdid e)
      | locked => rfl
      | unlocked => rfl
      | refused e => rfl
      | started work => rfl
    rw [List.countP_append, List.countP_append, List.countP_append, h.bounded, hends,
      s.countP_giveBack]
    exact h.room
  · unfold LockHeld at hlast
    have hlater : [SpawnMoment.unlocked].count .unlocked = 1 ∧
        [SpawnMoment.unlocked].count .locked = 0 := by decide
    simp only [List.count_append] at hlast ⊢
    omega

/-- What a program is started in is open. -/
theorem Tracks.orderly_started (h : s.Tracks) :
    SpawnOrderly s.prepared (.started (s.held.map Prod.fst)) := by
  refine ⟨s.lockHeld_prepared, fun d hd => ?_⟩
  obtain ⟨held, hheld, rfl⟩ := Option.map_eq_some_iff.mp hd
  have hcounted := h.counted (.dir held.1)
  have hpos : 0 < s.kept.count (.dir held.1) := by
    refine List.count_pos_iff.mpr (List.mem_append_right _ ?_)
    simp [hheld]
  unfold IsOpen
  omega

end Spawn

/-- The lock taken and released once more. -/
theorem GivesBack.again {moments : List SpawnMoment} (h : GivesBack moments) :
    GivesBack (moments ++ [.locked, .unlocked]) := by
  have hsplit : moments ++ [.locked, .unlocked] = moments ++ [.locked] ++ [.unlocked] := by simp
  refine ⟨fun r => ?_, ?_, ?_, ?_⟩
  · simpa using h.closed r
  · rw [hsplit]
    refine always_snoc.mpr ⟨always_snoc.mpr ⟨h.orderly, h.unlocked.symm⟩, ?_⟩
    have hunlocked := h.unlocked
    show LockHeld (moments ++ [.locked])
    unfold LockHeld
    simpa using hunlocked.symm
  · have hbounded := h.bounded
    rw [List.countP_append]
    simpa [SpawnMoment.opensFile] using hbounded
  · simpa using h.unlocked

theorem givesBack_nil : GivesBack [] where
  closed _ := rfl
  orderly := always_nil _
  bounded := Nat.zero_le _
  unlocked := rfl

/-- **A spawn gives back everything it opened**, whatever its file actions are, whatever the
environment answers and whatever becomes of the start. -/
theorem spawn_gives_back (w : PortState) (env : SpawnEnv) (start : Request → Option KalError)
    (record : Option ℕ) (args : SpawnArgs) (fa : FileActions) :
    GivesBack (w.spawnCommon env start record args fa).moments := by
  unfold PortState.spawnCommon
  by_cases hplace : args.res = false ∨ args.path = none
  · rw [if_pos hplace]
    exact givesBack_nil
  · rw [if_neg hplace]
    by_cases hattr : (args.attr.any SpawnAttr.refused) = true
    · rw [if_pos hattr]
      exact givesBack_nil
    · rw [if_neg hattr]
      cases w.okmResolve atFdcwd args.path false with
      | error e => exact givesBack_nil
      | ok at_ =>
        dsimp only
        cases startable env at_ with
        | error e => exact givesBack_nil
        | ok u =>
          dsimp only
          by_cases hbig : args.argv.length ≥ okmSpawnMax ∨ args.envp.length ≥ okmSpawnMax
          · rw [if_pos hbig]
            exact givesBack_nil
          · -- from here on the lock is held, and every way out leads through the exit
            rw [if_neg hbig]
            have htracks := Spawn.tracks_prepare w env fa
            generalize Spawn.prepare w env fa = s at htracks
            cases s.refused with
            | some e =>
              exact htracks.gives_back s.lockHeld_prepared
                (Or.inl ⟨e, List.mem_append_right _ List.mem_cons_self⟩) (by simp) (by simp)
            | none =>
              have hback := htracks.gives_back htracks.orderly_started
                (Or.inr ⟨_, List.mem_append_right _ List.mem_cons_self⟩) (by simp) (by simp)
              cases start _ with
              | some e => exact hback
              | none => exact hback.again

end OpenkalMusl
