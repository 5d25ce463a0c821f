import OpenkalMusl.Spawn.Starting

/-!
# Two searches of a path

`posix_spawnp` makes a start for each entry of the search path, and musl's `execvp` an `execve`.
Both go on after an answer that says something of the entry alone. They differ in two things: an
entry that leaves no room for the name within `OKM_MAX_PATH` bytes is passed over by the one and
tried by the other where it is shorter than `PATH_MAX` itself, and when nothing is started and no
permission was missing the one reports `ENOENT` and the other its last error.

What a candidate's name comes to is a parameter: nothing where the program is started, and otherwise
the error.

## Main definitions

* `spawnpSearch`, `execvpSearch`: the two searches, with the candidates they try
* `NoneBeyond`, `EndsAlike`: the conditions under which they go alike

## Main results

* `answer_search`: the search is that of `posix_spawnp`
* `searches_agree_iff`: when the two try the same candidates and end alike
-/

namespace OpenkalMusl

/-- What a search did: the candidates it tried in order, and the one it started or its error. -/
structure SearchOutcome where
  tried : List Text
  result : Except Errno Text

/-- A candidate was tried before. -/
def SearchOutcome.behind (name : Text) (s : SearchOutcome) : SearchOutcome :=
  { s with tried := name :: s.tried }

/-- `PATH_MAX`. -/
def pathMax : ℕ := 4096

/-- An entry with the file's name behind it; an empty entry means the working directory. -/
def candidate (file entry : Text) : Text := if entry = [] then file else entry ++ '/' :: file

/-- `posix_spawnp` joins an entry to the name where the two fit. -/
def Joinable (file entry : Text) : Prop :=
  entry.length + (if entry = [] then 0 else 1) + file.length + 1 ≤ okmMaxPath

instance (file entry : Text) : Decidable (Joinable file entry) :=
  inferInstanceAs (Decidable (_ ≤ _))

section Searches

variable (out : Text → Option Errno)

/-- A start or an `execve` of one name. -/
def attemptOne (name : Text) : SearchOutcome :=
  ⟨[name], match out name with
    | none => .ok name
    | some e => .error e⟩

/-- The loop of `posix_spawnp` over the candidates. -/
def spawnpLoop : Bool → List Text → SearchOutcome
  | seenEacces, [] => ⟨[], .error (if seenEacces then .eacces else .enoent)⟩
  | seenEacces, name :: names =>
    match out name with
    -- a permission that is missing is reported if nothing starts, the other two are forgotten
    | some .eacces => (spawnpLoop true names).behind name
    | some .enoent | some .enotdir => (spawnpLoop seenEacces names).behind name
    | _ => attemptOne out name

/-- `__posix_spawnp`, of a name and a place for the identifier. -/
def spawnpSearch (path : Option Text) (file : Text) : SearchOutcome :=
  if file = [] then ⟨[], .error .enoent⟩
  else if '/' ∈ file then attemptOne out file
  else if nameMax < file.length then ⟨[], .error .enametoolong⟩
  else spawnpLoop out false (candidates (path.getD defaultPath) file)

/-- The loop of `__execvpe` over the entries; `l` is the room for one. -/
def execvpLoop (l : ℕ) (file : Text) : Bool → Errno → List Text → SearchOutcome
  | seenEacces, errno, [] => ⟨[], .error (if seenEacces then .eacces else errno)⟩
  | seenEacces, errno, entry :: entries =>
    -- an entry that is too long is passed over, without an error of its own
    if l ≤ entry.length then execvpLoop l file seenEacces errno entries
    else
      let name := candidate file entry
      match out name with
      | some .eacces => (execvpLoop l file true .eacces entries).behind name
      | some .enoent => (execvpLoop l file seenEacces .enoent entries).behind name
      | some .enotdir => (execvpLoop l file seenEacces .enotdir entries).behind name
      | _ => attemptOne out name

/-- `__execvpe`. -/
def execvpSearch (path : Option Text) (file : Text) : SearchOutcome :=
  if file = [] then ⟨[], .error .enoent⟩
  else if '/' ∈ file then attemptOne out file
  else if nameMax < file.length then ⟨[], .error .enametoolong⟩
  else
    let path := path.getD defaultPath
    -- `strnlen(path, PATH_MAX-1)+1`: an entry of the whole path still fits
    execvpLoop out (min path.length (pathMax - 1) + 1) file false .enoent (pathEntries path)

/-! ## The search of `posix_spawnp` -/

/-- What an attempt at a name comes to, in an environment that answers every attempt alike. -/
def outcomeOf (w : PortState) (env : StartEnv) (args : StartArgs) (t : Children) (name : Text) :
    Option Errno :=
  match (spawnCommon w env 0 false args (some name) t).answer with
  | .ok _ => none
  | .error e => some e

/-- The environment answers the attempts of one call alike. -/
def StartEnv.Steady (env : StartEnv) : Prop :=
  ∀ n, env.spawn n = env.spawn 0 ∧ env.start n = env.start 0

/-- An outcome tells what a search found. -/
def StartOutcome.Tells (o : StartOutcome) (s : SearchOutcome) : Prop :=
  match s.result with
  | .ok _ => ∃ pid, o.answer = .ok pid
  | .error e => o.answer = .error e

theorem spawnCommon_steady {w : PortState} {env : StartEnv} (h : env.Steady) (n : ℕ)
    (bound : Bool) (args : StartArgs) (name : Option Text) (t : Children) :
    spawnCommon w env n bound args name t = spawnCommon w env 0 bound args name t := by
  unfold spawnCommon attempt
  rw [(h n).1, (h n).2]

/-- **The search of a call** is the loop over what its attempts come to. -/
theorem answer_search {w : PortState} {env : StartEnv} (h : env.Steady) (args : StartArgs)
    (t : Children) (n : ℕ) (seen : Bool) (names : List Text) :
    (search w env args n seen names t).Tells
      (spawnpLoop (outcomeOf w env args t) seen names) := by
  induction names generalizing n seen with
  | nil => rfl
  | cons name names ih =>
    -- an attempt that is answered for its entry alone leaves the table
    have hskip : ∀ {e : Errno}, (spawnCommon w env 0 false args (some name) t).answer = .error e →
        e ≠ .eagain → ∀ seen',
        ((search w env args (n + 1) seen' names
            (spawnCommon w env 0 false args (some name) t).table).after
          (spawnCommon w env 0 false args (some name) t).log).Tells
          ((spawnpLoop (outcomeOf w env args t) seen' names).behind name) := by
      intro e ha he seen'
      rw [(spawnCommon_of_error ha he).2]
      exact ih (n + 1) seen'
    unfold search spawnpLoop attemptOne outcomeOf
    rw [spawnCommon_steady h n]
    simp only
    cases ha : (spawnCommon w env 0 false args (some name) t).answer with
    | ok pid => exact ⟨pid, ha⟩
    | error e =>
      cases e with
      | eacces => exact hskip ha (by decide) true
      | enoent => exact hskip ha (by decide) seen
      | enotdir => exact hskip ha (by decide) seen
      | _ => exact ha

/-! ## When they go alike -/

/-- The outcome says something of the entry alone. -/
def GoesOn (name : Text) : Prop := out name ∈ [some .eacces, some .enoent, some .enotdir]

instance (name : Text) : Decidable (GoesOn out name) := inferInstanceAs (Decidable (_ ∈ _))

/-- An entry that `execvp` has room for and `posix_spawnp` has not comes behind a candidate that
ends the search. -/
def NoneBeyond (file : Text) (entries : List Text) : Prop :=
  ∀ before entry after, entries = before ++ entry :: after → entry.length < pathMax →
    ¬ Joinable file entry →
      ∃ e ∈ before, Joinable file e ∧ ¬ GoesOn out (candidate file e)

/-- Where no candidate ends the search, one fails with `EACCES` or the last does not fail with
`ENOTDIR`. -/
def EndsAlike (names : List Text) : Prop :=
  (∀ name ∈ names, GoesOn out name) → (∀ name ∈ names, out name ≠ some .eacces) →
    ∀ name, names.getLast? = some name → out name ≠ some .enotdir

variable {out} {file : Text}

theorem goesOn_cases {name : Text} (h : GoesOn out name) :
    out name = some .eacces ∨ out name = some .enoent ∨ out name = some .enotdir := by
  simpa [GoesOn] using h

theorem spawnpLoop_of_ends {name : Text} (h : ¬ GoesOn out name) (seen : Bool)
    (names : List Text) : spawnpLoop out seen (name :: names) = attemptOne out name := by
  unfold spawnpLoop
  split
  · exact absurd (by simp [GoesOn, *]) h
  · exact absurd (by simp [GoesOn, *]) h
  · exact absurd (by simp [GoesOn, *]) h
  · rfl

theorem execvpLoop_of_ends {l : ℕ} {entry : Text} (hl : entry.length < l)
    (h : ¬ GoesOn out (candidate file entry)) (seen : Bool) (errno : Errno)
    (entries : List Text) :
    execvpLoop out l file seen errno (entry :: entries) =
      attemptOne out (candidate file entry) := by
  unfold execvpLoop
  rw [if_neg (not_le.mpr hl)]
  simp only
  split
  · exact absurd (by simp [GoesOn, *]) h
  · exact absurd (by simp [GoesOn, *]) h
  · exact absurd (by simp [GoesOn, *]) h
  · rfl

/-- The candidate's error, and whether a permission was missing. -/
def seenAfter (out : Text → Option Errno) (seen : Bool) (name : Text) : Bool :=
  seen || decide (out name = some .eacces)

theorem spawnpLoop_of_goesOn {name : Text} (h : GoesOn out name) (seen : Bool)
    (names : List Text) :
    spawnpLoop out seen (name :: names) =
      (spawnpLoop out (seenAfter out seen name) names).behind name := by
  rcases goesOn_cases h with ho | ho | ho <;> simp [spawnpLoop, seenAfter, ho]

theorem execvpLoop_of_goesOn {l : ℕ} {entry : Text} (hl : entry.length < l)
    (h : GoesOn out (candidate file entry)) (seen : Bool) (errno : Errno) (entries : List Text) :
    execvpLoop out l file seen errno (entry :: entries) =
      (execvpLoop out l file (seenAfter out seen (candidate file entry))
        ((out (candidate file entry)).getD errno) entries).behind (candidate file entry) := by
  rcases goesOn_cases h with ho | ho | ho <;>
    simp [execvpLoop, seenAfter, ho, Nat.not_le.mpr hl]

theorem behind_inj {name : Text} {s t : SearchOutcome} : s.behind name = t.behind name ↔ s = t := by
  obtain ⟨st, sr⟩ := s
  obtain ⟨tt, tr⟩ := t
  simp [SearchOutcome.behind]

/-- The candidates of some entries. -/
def joined (file : Text) (entries : List Text) : List Text :=
  (entries.filter fun e => Joinable file e).map (candidate file)

theorem candidates_eq (path file : Text) : candidates path file = joined file (pathEntries path) :=
  rfl

theorem joined_cons_pos {entry : Text} (h : Joinable file entry) (entries : List Text) :
    joined file (entry :: entries) = candidate file entry :: joined file entries := by
  simp [joined, h]

theorem joined_cons_neg {entry : Text} (h : ¬ Joinable file entry) (entries : List Text) :
    joined file (entry :: entries) = joined file entries := by
  simp [joined, h]

theorem Joinable.lt_pathMax {entry : Text} (h : Joinable file entry) :
    entry.length < pathMax := by
  have hle : entry.length + 1 ≤ 4096 := by
    have : entry.length + _ + file.length + 1 ≤ 4096 := h
    omega
  exact hle

/-- A candidate of `posix_spawnp` is shorter than one that it has no room for. -/
theorem length_candidate {entry : Text} (hfile : file.length ≤ nameMax) :
    (candidate file entry).length < okmMaxPath ↔ Joinable file entry := by
  have hfile' : file.length ≤ 255 := hfile
  unfold candidate Joinable okmMaxPath
  split_ifs with hempty
  · subst hempty
    simp only [List.length_nil]
    omega
  · simp only [List.length_append, List.length_cons]
    omega

theorem mem_tried_spawnpLoop {seen : Bool} {names : List Text} {name : Text}
    (h : name ∈ (spawnpLoop out seen names).tried) : name ∈ names := by
  induction names generalizing seen with
  | nil => simp [spawnpLoop] at h
  | cons n names ih =>
    by_cases hgo : GoesOn out n
    · rw [spawnpLoop_of_goesOn hgo] at h
      rcases List.mem_cons.mp h with rfl | h
      · exact List.mem_cons_self
      · exact List.mem_cons_of_mem _ (ih h)
    · rw [spawnpLoop_of_ends hgo] at h
      obtain rfl := List.mem_singleton.mp h
      exact List.mem_cons_self

theorem head_tried_execvpLoop {l : ℕ} {entry : Text} (hl : entry.length < l) (seen : Bool)
    (errno : Errno) (entries : List Text) :
    candidate file entry ∈ (execvpLoop out l file seen errno (entry :: entries)).tried := by
  by_cases hgo : GoesOn out (candidate file entry)
  · rw [execvpLoop_of_goesOn hl hgo]
    exact List.mem_cons_self
  · rw [execvpLoop_of_ends hl hgo]
    exact List.mem_cons_self

/-! ### The entries without room -/

theorem noneBeyond_cons {entry : Text} {entries : List Text} :
    NoneBeyond out file (entry :: entries) ↔
      (entry.length < pathMax → Joinable file entry) ∧
        (Joinable file entry ∧ ¬ GoesOn out (candidate file entry) ∨
          NoneBeyond out file entries) := by
  constructor
  · intro h
    refine ⟨fun hlt => by_contra fun hno => ?_, ?_⟩
    · obtain ⟨e, he, -⟩ := h [] entry entries rfl hlt hno
      cases he
    · by_cases hends : Joinable file entry ∧ ¬ GoesOn out (candidate file entry)
      · exact Or.inl hends
      · -- the candidate before a later entry that ends the search is not the head
        refine Or.inr fun before e after heq hlt hno => ?_
        obtain ⟨b, hb, hjoin, hgo⟩ := h (entry :: before) e after (by rw [heq]; rfl) hlt hno
        rcases List.mem_cons.mp hb with rfl | hb
        · exact absurd ⟨hjoin, hgo⟩ hends
        · exact ⟨b, hb, hjoin, hgo⟩
  · rintro ⟨hhead, htail⟩ before e after heq hlt hno
    cases before with
    | nil =>
      obtain ⟨rfl, -⟩ := List.cons.inj heq
      exact absurd (hhead hlt) hno
    | cons b before =>
      obtain ⟨rfl, hrest⟩ := List.cons.inj heq
      rcases htail with ⟨hjoin, hgo⟩ | htail
      · exact ⟨entry, List.mem_cons_self, hjoin, hgo⟩
      · obtain ⟨b, hb, h⟩ := htail before e after hrest hlt hno
        exact ⟨b, List.mem_cons_of_mem _ hb, h⟩

/-! ### The error at the end -/

/-- The error of a search that nothing ends, from a point on where `seen` and `errno` are what the
candidates before it left. -/
def EndsFrom (out : Text → Option Errno) (seen : Bool) (errno : Errno) (names : List Text) : Prop :=
  (∀ name ∈ names, GoesOn out name) → seen = false → (∀ name ∈ names, out name ≠ some .eacces) →
    (names.getLast?.bind out).getD errno = .enoent

theorem endsFrom_cons {name : Text} {names : List Text} {seen : Bool} {errno : Errno}
    (h : GoesOn out name) :
    EndsFrom out seen errno (name :: names) ↔
      EndsFrom out (seenAfter out seen name) ((out name).getD errno) names := by
  -- the last of the candidates, or the first where it is the only one
  have hlast : (∀ n ∈ names, GoesOn out n) →
      ((name :: names).getLast?.bind out).getD errno =
        (names.getLast?.bind out).getD ((out name).getD errno) := by
    intro hall
    rw [List.getLast?_cons]
    cases hn : names.getLast? with
    | none => simp
    | some n =>
      rcases goesOn_cases (hall n (List.mem_of_getLast? hn)) with ho | ho | ho <;> simp [ho]
  unfold EndsFrom seenAfter
  constructor
  · intro hends hall hseen hnone
    simp only [Bool.or_eq_false_iff, decide_eq_false_iff_not] at hseen
    rw [← hlast hall]
    refine hends (List.forall_mem_cons.mpr ⟨h, hall⟩) hseen.1 ?_
    exact List.forall_mem_cons.mpr ⟨hseen.2, hnone⟩
  · intro hends hall hseen hnone
    obtain ⟨hname, hnone⟩ := List.forall_mem_cons.mp hnone
    have hall' := (List.forall_mem_cons.mp hall).2
    rw [hlast hall']
    exact hends hall' (by simp [hseen, hname]) hnone

theorem endsFrom_of_ends {names : List Text} {name : Text} (hmem : name ∈ names)
    (h : ¬ GoesOn out name) (seen : Bool) (errno : Errno) : EndsFrom out seen errno names :=
  fun hall => absurd (hall name hmem) h

theorem endsFrom_start {names : List Text} :
    EndsFrom out false .enoent names ↔ EndsAlike out names := by
  unfold EndsFrom EndsAlike
  refine imp_congr_right fun hall => ?_
  simp only [forall_true_left]
  refine imp_congr_right fun hnone => ?_
  cases hlast : names.getLast? with
  | none => simp
  | some name =>
    have hmem := List.mem_of_getLast? hlast
    rcases goesOn_cases (hall name hmem) with ho | ho | ho
    · exact absurd ho (hnone name hmem)
    · simp [ho]
    · simp [ho]

/-! ### The loops -/

/-- **The two loops go alike** exactly where no entry without room for the name is reached and the
error at the end is the same. -/
theorem loops_agree_iff (hfile : file.length ≤ nameMax) {l : ℕ} {entries : List Text}
    (hroom : ∀ e ∈ entries, e.length < l ↔ e.length < pathMax) (seen : Bool) (errno : Errno) :
    spawnpLoop out seen (joined file entries) = execvpLoop out l file seen errno entries ↔
      NoneBeyond out file entries ∧ EndsFrom out seen errno (joined file entries) := by
  induction entries generalizing seen errno with
  | nil =>
    have hnone : NoneBeyond out file [] := fun before _ _ heq => by simp at heq
    simp only [hnone, true_and, joined, List.filter_nil, List.map_nil, spawnpLoop, execvpLoop,
      EndsFrom]
    cases seen <;> simp [eq_comm]
  | cons entry entries ih =>
    obtain ⟨hhead, htail⟩ := List.forall_mem_cons.mp hroom
    specialize ih htail
    rw [noneBeyond_cons]
    by_cases hjoin : Joinable file entry
    · have hl : entry.length < l := hhead.mpr hjoin.lt_pathMax
      rw [joined_cons_pos hjoin]
      by_cases hgo : GoesOn out (candidate file entry)
      · -- both go on
        rw [spawnpLoop_of_goesOn hgo, execvpLoop_of_goesOn hl hgo, behind_inj, ih,
          endsFrom_cons hgo]
        simp [hjoin, hgo]
      · -- both end
        rw [spawnpLoop_of_ends hgo, execvpLoop_of_ends hl hgo]
        refine iff_of_true rfl ⟨⟨fun _ => hjoin, Or.inl ⟨hjoin, hgo⟩⟩, ?_⟩
        exact endsFrom_of_ends List.mem_cons_self hgo seen errno
    · rw [joined_cons_neg hjoin]
      by_cases hlt : entry.length < pathMax
      · -- only `execvp` tries it, and its name is longer than any that the other tries
        refine iff_of_false (fun heq => ?_) (fun h => hjoin (h.1.1 hlt))
        have hmem : candidate file entry ∈ (execvpLoop out l file seen errno
            (entry :: entries)).tried := head_tried_execvpLoop (hhead.mpr hlt) seen errno entries
        rw [← heq] at hmem
        obtain ⟨e, he, hname⟩ := List.mem_map.mp (mem_tried_spawnpLoop hmem)
        have hshort : (candidate file e).length < okmMaxPath :=
          (length_candidate hfile).mpr (by simpa using (List.mem_filter.mp he).2)
        rw [hname] at hshort
        exact hjoin ((length_candidate hfile).mp hshort)
      · -- neither has room for the entry
        have hl : l ≤ entry.length := not_lt.mp fun h => hlt (hhead.mp h)
        have hskip : execvpLoop out l file seen errno (entry :: entries) =
            execvpLoop out l file seen errno entries := by
          conv_lhs => unfold execvpLoop
          exact if_pos hl
        rw [hskip, ih]
        simp [hlt, hjoin]

end Searches

/-- An entry is no longer than the path. -/
theorem length_le_of_mem_pathEntries {path entry : Text} (h : entry ∈ pathEntries path) :
    entry.length ≤ path.length := by
  induction path generalizing entry with
  | nil =>
    obtain rfl := List.mem_singleton.mp h
    exact le_rfl
  | cons c cs ih =>
    unfold pathEntries at h
    split_ifs at h with hc
    · rcases List.mem_cons.mp h with rfl | h
      · exact Nat.zero_le _
      · exact (ih h).trans (Nat.le_succ _)
    · cases hes : pathEntries cs with
      | nil =>
        rw [hes] at h
        obtain rfl := List.mem_singleton.mp h
        simp
      | cons e es =>
        rw [hes] at h
        rcases List.mem_cons.mp h with rfl | h
        · exact Nat.succ_le_succ (ih (hes ▸ List.mem_cons_self))
        · exact (ih (hes ▸ List.mem_cons_of_mem _ h)).trans (Nat.le_succ _)

/-- **When the two searches agree**: they try the same candidates in the same order, and start the
same one or report the same error, exactly where nothing is searched for; or no entry is reached
that `execvp` has room for and `posix_spawnp` has not, and a search that nothing ends meets a
missing permission or does not end with `ENOTDIR`. -/
theorem searches_agree_iff (out : Text → Option Errno) (path : Option Text) (file : Text) :
    spawnpSearch out path file = execvpSearch out path file ↔
      (file = [] ∨ '/' ∈ file ∨ nameMax < file.length) ∨
        NoneBeyond out file (pathEntries (path.getD defaultPath)) ∧
          EndsAlike out (candidates (path.getD defaultPath) file) := by
  unfold spawnpSearch execvpSearch
  by_cases hempty : file = []
  · simp [hempty]
  by_cases hslash : '/' ∈ file
  · simp [hempty, hslash]
  by_cases hlong : nameMax < file.length
  · simp [hempty, hslash, hlong]
  simp only [hempty, hslash, hlong, if_false, false_or]
  -- the buffer of `execvp` is as long as the path, and so no entry of it is too long for it
  have hroom : ∀ e ∈ pathEntries (path.getD defaultPath),
      e.length < min (path.getD defaultPath).length (pathMax - 1) + 1 ↔ e.length < pathMax := by
    intro e he
    have hle := length_le_of_mem_pathEntries he
    have hmax : pathMax = 4096 := rfl
    omega
  rw [candidates_eq, loops_agree_iff (not_lt.mp hlong) hroom, endsFrom_start]

/-- A name in a path of one entry that is not a directory: one reports that there is no such name,
and the other that the entry is no directory. -/
theorem searches_differ :
    ¬ ∀ out path file, spawnpSearch out path file = execvpSearch out path file := by
  intro hall
  have heq := congrArg SearchOutcome.result
    (hall (fun _ => some .enotdir) (some ['/', 'a']) ['p'])
  have hspawnp : (spawnpSearch (fun _ => some .enotdir) (some ['/', 'a']) ['p']).result =
      .error .enoent := rfl
  have hexecvp : (execvpSearch (fun _ => some .enotdir) (some ['/', 'a']) ['p']).result =
      .error .enotdir := rfl
  rw [hspawnp, hexecvp] at heq
  cases heq

end OpenkalMusl
