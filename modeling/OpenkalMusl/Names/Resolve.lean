import OpenkalMusl.Descriptors.Table

/-!
# Resolving a name

`okm_resolve` and `okm_absolute` of `okm_fd.c`: a name is made absolute and matched against the
supplied directories, and the longest one that is a whole-component start of it is the base of
what remains. A name beneath a directory whose own name is not known is resolved through that
directory's handle.

A program is confined by the directories it is supplied. What `okm_resolve` produces has to be in
the form openkal accepts, because it is openkal that keeps the program within them.

## Main definitions

* `okmResolve`, `okmAbsolute`, `okmNullName`: the source's functions
* `joinedTo`: the name a path is joined to
* `WholeStart name form`: `name` is a whole-component start of `form`

## Main results

* `okmResolve_confined`: whatever is resolved is in the form openkal accepts
* `okmResolve_longest`: the longest supplied directory is chosen, and the name is reconstructed
* `ascentRefused_iff`: when a directory of unknown name cannot be left by a name that ascends
-/

namespace OpenkalMusl

open Lexical

/-- Where a name resolves to: a directory, and the remainder with its length. -/
structure At where
  base : Handle
  rel : Text
  len : ℕ
  deriving DecidableEq, Repr

/-- The scan of `okm_resolve` for a component that ascends; a turn reads at least one character
of `p`. -/
def scanUp : ℕ → Text → Bool
  | 0, _ => false
  | fuel + 1, p =>
    if p = [] then false
    else if p[0]? = some '.' ∧ p[1]? = some '.' ∧ (p[2]? = some '/' ∨ p.length = 2) then true
    else scanUp fuel ((p.dropWhile (· ≠ '/')).dropWhile (· = '/'))

/-- The loop of `okm_resolve` over the supplied directories. -/
def bestPreopen (abs : Text) : List Preopen → Option Preopen → Option Preopen
  | [], best => best
  | p :: pre, best =>
    if !isPrefixAtBoundary p.name abs then bestPreopen abs pre best
    else if best.all fun b => p.name.length > b.name.length then bestPreopen abs pre (some p)
    else bestPreopen abs pre best

namespace PortState

/-- The end of `okm_resolve`: an absolute name, and its length where it was taken as it stands. -/
def matchPreopen (w : PortState) (abs : Text) (absLen : ℕ) : Except Errno At :=
  match bestPreopen abs w.pre none with
  | none => .error .enoent
  | some p =>
    let rest := (abs.drop p.name.length).dropWhile fun c => c = '/' || (c = '\\' && isVolume p.name)
    let restLen := if absLen ≠ 0 then absLen - (abs.length - rest.length) else rest.length
    let r := if rest = [] then copyStr here 1 okmMaxPath else copyStr rest restLen okmMaxPath
    .ok ⟨p.dir, r.1, r.2⟩

/-- The branch of `okm_resolve` for a directory whose own name is not known. -/
def resolveBeneath (dir : Handle) (path : Text) : Except Errno At :=
  match normalise path okmMaxPath with
  | .error e => .error e
  | .ok norm =>
    if scanUp norm.length norm then .error .eacces
    else
      let r := copyStr norm norm.length okmMaxPath
      let r := if r.1 = [] then copyStr here 1 okmMaxPath else r
      .ok ⟨dir, r.1, r.2⟩

/-- Resolves a name as `openat` would. -/
def okmResolve (w : PortState) (dirfd : Int) (path : Option Text) (emptyOk : Bool) :
    Except Errno At :=
  match path with
  | none => .error .efault
  | some path =>
    if path = [] ∧ emptyOk = false then .error .enoent
    else if alreadyNormal path ≠ 0 then w.matchPreopen path (alreadyNormal path)
    else if rootLength path ≠ 0 then
      (join [] path okmMaxPath).bind fun abs => w.matchPreopen abs 0
    else if dirfd = atFdcwd then
      (join w.cwd path okmMaxPath).bind fun abs => w.matchPreopen abs 0
    else match w.okmDescOf dirfd with
      | none => .error .enotdir
      | some d =>
        if (w.desc d).kind ≠ .dir then .error .enotdir
        else match w.dirName (w.desc d) with
          | some name => (join name path okmMaxPath).bind fun abs => w.matchPreopen abs 0
          | none => resolveBeneath (w.desc d).dir path

/-- The absolute form of a name. -/
def okmAbsolute (w : PortState) (dirfd : Int) (path : Option Text) (cap : ℕ) : Except Errno Text :=
  match path with
  | none => .error .efault
  | some path =>
    if rootLength path ≠ 0 then join [] path cap
    else if dirfd = atFdcwd then join w.cwd path cap
    else match w.okmDescOf dirfd with
      | none => .error .enotdir
      | some d =>
        if (w.desc d).kind ≠ .dir then .error .enotdir
        else match w.dirName (w.desc d) with
          | some name => join name path cap
          | none => .error .enoent

/-- The null device's name. -/
def nullDevice : Text := ['/', 'd', 'e', 'v', '/', 'n', 'u', 'l', 'l']

/-- Whether a name's absolute form is the null device's name. -/
def nullNameResolved (w : PortState) (dirfd : Int) (path : Option Text) : Bool :=
  if path.getD [] = [] then false
  else match w.okmAbsolute dirfd path okmMaxPath with
    | .ok abs => abs = nullDevice
    | .error _ => false

/-- Whether a name is the null device's. A last component that is neither `null` nor special
survives normalisation and decides without it. -/
def okmNullName (w : PortState) (dirfd : Int) (path : Option Text) : Bool :=
  match path with
  | none => false
  | some path =>
    if path = [] ∨ okmMaxPath ≤ path.length then false
    else
      let separates := fun c : Char => c = '/' || c = '\\'
      let last := ((path.reverse.dropWhile separates).takeWhile fun c => !separates c).reverse
      if last ≠ [] ∧ last ≠ ['n', 'u', 'l', 'l'] ∧ last ≠ here ∧ last ≠ up then false
      else w.nullNameResolved dirfd (some path)

end PortState

/-! ## The loop over the supplied directories -/

theorem bestPreopen_eq_none_iff {abs : Text} {pre : List Preopen} {best : Option Preopen} :
    bestPreopen abs pre best = none ↔
      best = none ∧ ∀ p ∈ pre, isPrefixAtBoundary p.name abs = false := by
  induction pre generalizing best with
  | nil => simp [bestPreopen]
  | cons p pre ih =>
    unfold bestPreopen
    cases hp : isPrefixAtBoundary p.name abs with
    | false => simp [ih, hp]
    | true =>
      -- one that matches is taken unless another was, and then there is a best either way
      have hbest : best.all (fun b => decide (p.name.length > b.name.length)) = false →
          best ≠ none := by
        rintro hall rfl
        simp at hall
      simp only [Bool.not_true, Bool.false_eq_true, if_false, List.mem_cons, forall_eq_or_imp, hp,
        reduceCtorEq, false_and, and_false, iff_false]
      split_ifs with hall
      · simp [ih]
      · exact fun h => hbest (by simpa using hall) (ih.mp h).1

/-- What the loop ends with matches, and nothing that matches is longer. -/
theorem bestPreopen_eq_some {abs : Text} {pre : List Preopen} {best : Option Preopen} {p : Preopen}
    (h : bestPreopen abs pre best = some p) :
    (best = some p ∨ p ∈ pre ∧ isPrefixAtBoundary p.name abs = true) ∧
      (∀ b, best = some b → b.name.length ≤ p.name.length) ∧
      ∀ q ∈ pre, isPrefixAtBoundary q.name abs = true → q.name.length ≤ p.name.length := by
  -- Along the loop the best so far only grows, and only by a name that matches.
  induction pre generalizing best with
  | nil =>
    obtain rfl : best = some p := by simpa [bestPreopen] using h
    simp
  | cons q pre ih =>
    unfold bestPreopen at h
    cases hq : isPrefixAtBoundary q.name abs with
    | false =>
      obtain ⟨hp, hb, hle⟩ := ih (by simpa [hq] using h)
      refine ⟨hp.imp_right fun hp => ⟨List.mem_cons_of_mem _ hp.1, hp.2⟩, hb, ?_⟩
      intro r hr hmatch
      rcases List.mem_cons.mp hr with rfl | hr
      · rw [hq] at hmatch
        exact absurd hmatch (by simp)
      · exact hle r hr hmatch
    | true =>
      simp only [hq, Bool.not_true, Bool.false_eq_true, if_false] at h
      split_ifs at h with hall
      · -- the new one is longer than what was best
        obtain ⟨hp, hb, hle⟩ := ih h
        have hqp := hb q rfl
        refine ⟨Or.inr ?_, fun b hbest => ?_, fun r hr hmatch => ?_⟩
        · rcases hp with hp | hp
          · obtain rfl := Option.some.inj hp
            exact ⟨List.mem_cons_self, hq⟩
          · exact ⟨List.mem_cons_of_mem _ hp.1, hp.2⟩
        · simp only [hbest, Option.all_some, decide_eq_true_eq] at hall
          omega
        · rcases List.mem_cons.mp hr with rfl | hr
          · exact hqp
          · exact hle r hr hmatch
      · -- what was best stays
        obtain ⟨hp, hb, hle⟩ := ih h
        refine ⟨hp.imp_right fun hp => ⟨List.mem_cons_of_mem _ hp.1, hp.2⟩, hb, ?_⟩
        intro r hr hmatch
        rcases List.mem_cons.mp hr with rfl | hr
        · cases best with
          | none => simp at hall
          | some b =>
            have := hb b rfl
            simp only [Option.all_some, decide_eq_true_eq] at hall
            omega
        · exact hle r hr hmatch

/-! ## What remains behind a supplied directory -/

/-- The remainder a stack of components spells. -/
def relName (ds : List Text) : Text := if ds = [] then here else joined '/' ds

theorem relName_eq_here_iff {ds : List Text} (h : Stack '/' here up ds) :
    relName ds = here ↔ ds = [] := by
  unfold relName
  split_ifs with hds
  · simp [hds]
  · simp only [hds, iff_false]
    intro he
    -- otherwise the stack would be the one component `.`, which is not ordinary
    have hseg := segments_joined h.component
    rw [he, segments_component ⟨by decide, by decide⟩] at hseg
    have := (h here (by simp [← hseg])).2.1
    exact this rfl

theorem length_relName_lt {ds : List Text} (h : (joined '/' ds).length < okmMaxPath) :
    (relName ds).length < okmMaxPath := by
  unfold relName
  split_ifs
  · decide
  · exact h

/-- A lexical form: a root, and a joined stack behind it. -/
def IsForm (abs : Text) : Prop :=
  ∃ root cs, Stack '/' here up cs ∧ abs = root ++ joined '/' cs ∧
    (root = [] ∨ root = ['/'] ∨ root[0]? ≠ some '/' ∧ root[1]? = some ':')

theorem isForm_lexicalForm (base rel : Text) : IsForm (lexicalForm base rel) :=
  exists_lexicalForm base rel

/-- Behind a name that is spelled beneath no volume, a lexical form goes on with a joined stack,
after at most one separator. -/
theorem IsForm.exists_rest {abs name q : Text} (habs : IsForm abs) (hv : isVolume name = false)
    (hne : name ≠ []) (hq : abs = name ++ q) (hb : Boundary '/' name q) :
    ∃ ds, Stack '/' here up ds ∧ (q = joined '/' ds ∨ ds ≠ [] ∧ q = '/' :: joined '/' ds) := by
  obtain ⟨root, cs, hcs, rfl, rfl | rfl | ⟨hroot, hcolon⟩⟩ := habs
  · -- no root: the name is a prefix of the joined stack itself
    obtain ⟨ds, hds, h⟩ := exists_suffix_of_boundary hcs.component hq hb
    exact ⟨ds, hcs.of_suffix hds, h⟩
  · -- the root is the separator, and so is the name's first character
    obtain ⟨a, name, rfl⟩ := List.exists_cons_of_ne_nil hne
    obtain ⟨rfl, hrest⟩ : '/' = a ∧ joined '/' cs = name ++ q := by simpa using hq
    have hb' : Boundary '/' name q := by
      rcases hb with hb | hb | hb
      · simp at hb
      · cases name with
        | nil => exact Or.inl rfl
        | cons b name => exact Or.inr (Or.inl (by simpa [List.getLast?_cons_cons] using hb))
      · exact Or.inr (Or.inr hb)
    obtain ⟨ds, hds, h⟩ := exists_suffix_of_boundary hcs.component hrest hb'
    exact ⟨ds, hcs.of_suffix hds, h⟩
  · -- no name beneath no volume starts a form that has one
    exfalso
    match root, name, hcolon with
    | a :: b :: root, [c], hcolon =>
      obtain ⟨rfl, rfl⟩ : a = c ∧ b :: (root ++ joined '/' cs) = q := by simpa using hq
      rcases hb with hb | hb | hb | hb <;> simp_all
    | a :: b :: root, c :: d :: name, hcolon =>
      have hd : b = d := by
        have := congrArg (·[1]?) hq
        simpa using this
      simp_all [isVolume]

/-- The remainder the loop over separators leaves. -/
theorem dropWhile_rest {ds : List Text} {q : Text} (hds : Stack '/' here up ds)
    (hq : q = joined '/' ds ∨ ds ≠ [] ∧ q = '/' :: joined '/' ds) :
    q.dropWhile (fun c => c = '/' || (c = '\\' && false)) = joined '/' ds := by
  have hhead := head?_joined_ne hds.component
  have hself : (joined '/' ds).dropWhile (fun c => c = '/' || (c = '\\' && false)) =
      joined '/' ds := by
    cases hj : joined '/' ds with
    | nil => rfl
    | cons a t =>
      rw [hj] at hhead
      simpa using hhead
  rcases hq with rfl | ⟨-, rfl⟩
  · exact hself
  · simpa using hself

namespace PortState

/-- What the supplied directories make of a lexical form: nothing where none of them starts it,
and otherwise the longest that does, with the stack that remains. -/
theorem matchPreopen_cases {w : PortState} (hpre : ∀ p ∈ w.pre, isVolume p.name = false)
    {abs : Text} {n : ℕ} (habs : IsForm abs) (hlen : abs.length < okmMaxPath)
    (hn : n = 0 ∨ n = abs.length) :
    (w.matchPreopen abs n = .error .enoent ∧
        ∀ p ∈ w.pre, isPrefixAtBoundary p.name abs = false) ∨
      ∃ p ∈ w.pre, ∃ q ds, abs = p.name ++ q ∧ Boundary '/' p.name q ∧ p.name ≠ [] ∧
        Stack '/' here up ds ∧ (q = joined '/' ds ∨ ds ≠ [] ∧ q = '/' :: joined '/' ds) ∧
        (∀ r ∈ w.pre, isPrefixAtBoundary r.name abs = true → r.name.length ≤ p.name.length) ∧
        (joined '/' ds).length < okmMaxPath ∧
        w.matchPreopen abs n = .ok ⟨p.dir, relName ds, (relName ds).length⟩ := by
  unfold matchPreopen
  cases hbest : bestPreopen abs w.pre none with
  | none => exact Or.inl ⟨rfl, (bestPreopen_eq_none_iff.mp hbest).2⟩
  | some p =>
    right
    obtain ⟨hp, -, hle⟩ := bestPreopen_eq_some hbest
    obtain ⟨hmem, hmatch⟩ := hp.resolve_left (by simp)
    obtain ⟨hne, q, hq, hb⟩ := (isPrefixAtBoundary_iff (hpre p hmem)).mp hmatch
    obtain ⟨ds, hds, hrest⟩ := habs.exists_rest (hpre p hmem) hne hq hb
    have hdrop : (abs.drop p.name.length).dropWhile
        (fun c => c = '/' || (c = '\\' && isVolume p.name)) = joined '/' ds := by
      rw [hq, List.drop_left, hpre p hmem]
      exact dropWhile_rest hds hrest
    have hjlen : (joined '/' ds).length ≤ abs.length := by
      rw [← hdrop]
      exact (List.dropWhile_suffix _).length_le.trans (by simp)
    refine ⟨p, hmem, q, ds, hq, hb, hne, hds, hrest, hle, by omega, ?_⟩
    simp only [hdrop]
    -- the length of the remainder, measured or subtracted, is the same
    have hrestLen : (if n ≠ 0 then n - (abs.length - (joined '/' ds).length)
        else (joined '/' ds).length) = (joined '/' ds).length := by
      split_ifs
      · omega
      · rfl
    rw [hrestLen, copyStr_of_lt (by decide), copyStr_of_lt (by omega), List.take_length]
    by_cases hnil : ds = []
    · simp [hnil, relName, here]
    · rw [if_neg (by simpa [joined_eq_nil_iff hds.component] using hnil), relName, if_neg hnil]

/-! ## The name a path is joined to -/

/-- The name a path is joined to: nothing where it is absolute, the working directory's, or the
name of the directory whose descriptor is given. -/
def joinedTo (w : PortState) (dirfd : Int) (path : Text) : Option Text :=
  if rootLength path ≠ 0 then some []
  else if dirfd = atFdcwd then some w.cwd
  else (w.okmDescOf dirfd).bind fun d =>
    if (w.desc d).kind = .dir then w.dirName (w.desc d) else none

/-- A path that is joined to a name is refused as too long, or its lexical form is matched
against the supplied directories. -/
theorem okmResolve_of_joinedTo {w : PortState} {dirfd : Int} {path base : Text} {emptyOk : Bool}
    (hbase : w.joinedTo dirfd path = some base) (hne : path ≠ [] ∨ emptyOk = true) :
    w.okmResolve dirfd (some path) emptyOk = .error .enametoolong ∨
      ((lexicalForm base path).length < okmMaxPath ∧
        ∃ n, (n = 0 ∨ n = (lexicalForm base path).length) ∧
          w.okmResolve dirfd (some path) emptyOk = w.matchPreopen (lexicalForm base path) n) := by
  have hempty : ¬ (path = [] ∧ emptyOk = false) := by
    rintro ⟨rfl, rfl⟩
    simp at hne
  -- every route but the first joins the path to the same base
  have hjoin : ∀ r, w.okmResolve dirfd (some path) emptyOk = r →
      r = ((join base path okmMaxPath).bind fun abs => w.matchPreopen abs 0) →
      r = .error .enametoolong ∨ ((lexicalForm base path).length < okmMaxPath ∧
        ∃ n, (n = 0 ∨ n = (lexicalForm base path).length) ∧
          r = w.matchPreopen (lexicalForm base path) n) := by
    rintro r - rfl
    rcases join_cases base path okmMaxPath with h | ⟨h, hlt⟩
    · left
      rw [h]
      rfl
    · right
      rw [h]
      exact ⟨hlt, 0, Or.inl rfl, rfl⟩
  unfold joinedTo at hbase
  by_cases hnormal : alreadyNormal path ≠ 0
  · -- already normal: matched as it stands, with the length measured on the way
    obtain ⟨hn, hlt, cs, hcs, hpath⟩ := alreadyNormal_pos hnormal
    have hroot : rootLength path ≠ 0 := by simp [rootLength, hpath]
    rw [if_pos hroot] at hbase
    have hform := lexicalForm_eq_self base hcs hpath
    refine Or.inr ⟨by rw [hform]; exact hlt, path.length, Or.inr (by rw [hform]), ?_⟩
    simp only [okmResolve, if_neg hempty, if_pos hnormal, hform]
    rw [hn]
  · refine hjoin _ rfl ?_
    simp only [okmResolve, if_neg hempty, if_neg hnormal]
    by_cases hroot : rootLength path ≠ 0
    · rw [if_pos hroot] at hbase ⊢
      cases hbase
      rfl
    · rw [if_neg hroot] at hbase ⊢
      by_cases hcwd : dirfd = atFdcwd
      · rw [if_pos hcwd] at hbase ⊢
        cases hbase
        rfl
      · rw [if_neg hcwd] at hbase ⊢
        obtain ⟨d, hd, hname⟩ := Option.bind_eq_some_iff.mp hbase
        split_ifs at hname with hkind
        · simp [hd, hkind, hname]

/-- A path that is joined to no name is resolved through the handle of an open directory whose
name is not known, or refused. -/
theorem okmResolve_of_not_joinedTo {w : PortState} {dirfd : Int} {path : Text} {emptyOk : Bool}
    {at_ : At} (hbase : w.joinedTo dirfd path = none)
    (h : w.okmResolve dirfd (some path) emptyOk = .ok at_) :
    ∃ d, w.okmDescOf dirfd = some d ∧ (w.desc d).kind = .dir ∧
      resolveBeneath (w.desc d).dir path = .ok at_ := by
  unfold joinedTo at hbase
  have hroot : rootLength path = 0 := by
    by_contra hroot
    simp [hroot] at hbase
  have hcwd : dirfd ≠ atFdcwd := by
    rintro rfl
    simp [hroot] at hbase
  -- a normal path is absolute, and an absolute one is joined to nothing
  have hnormal : alreadyNormal path = 0 := by
    by_contra hnormal
    obtain ⟨-, -, cs, -, rfl⟩ := alreadyNormal_pos hnormal
    simp [rootLength] at hroot
  simp only [hroot, hcwd, ne_eq, not_true_eq_false, if_false] at hbase
  simp only [okmResolve, hroot, hcwd, hnormal, ne_eq, not_true_eq_false, if_false] at h
  split_ifs at h with hempty
  cases hd : w.okmDescOf dirfd with
  | none => simp [hd] at h
  | some d =>
    simp only [hd, Option.bind_some] at h hbase
    by_cases hkind : (w.desc d).kind = .dir
    · rw [if_pos hkind] at hbase
      refine ⟨d, rfl, hkind, ?_⟩
      simpa [hkind, hbase] using h
    · simp [hkind] at h

end PortState

/-! ## Directories whose name is not known -/

/-- No component of a joined stack ascends, so the scan finds nothing. -/
theorem scanUp_joined (fuel : ℕ) {cs : List Text} (hcs : Stack '/' here up cs) :
    scanUp fuel (joined '/' cs) = false := by
  -- The scan goes from component to component of the stack.
  induction fuel generalizing cs with
  | zero => rfl
  | succ fuel ih =>
    cases cs with
    | nil => rfl
    | cons c cs =>
      obtain ⟨hc, hord⟩ := hcs c (by simp)
      have hcs' : Stack '/' here up cs := fun d hd => hcs d (by simp [hd])
      obtain ⟨htake, hdrop⟩ := span_joined cs hc
      have hnext : ((joined '/' (c :: cs)).dropWhile (· ≠ '/')).dropWhile (· = '/') =
          joined '/' cs := by
        rw [hdrop]
        split_ifs with hnil
        · simp [hnil]
        · simpa using dropWhile_rest hcs' (Or.inr ⟨hnil, rfl⟩)
      unfold scanUp
      rw [hnext, ih hcs']
      split_ifs with h₁ h₂
      · rfl
      · -- what the scan would find is the first component, which is ordinary
        exfalso
        refine hord.2 ?_
        rw [← htake]
        match joined '/' (c :: cs), h₂ with
        | [], h => simp at h
        | [_], h => simp at h
        | [_, _], h => simp_all [up]
        | _ :: _ :: _ :: _, h => simp_all [up]
      · rfl

namespace PortState

/-- Beneath a directory whose name is not known, the lexical reduction of the path is used. -/
theorem resolveBeneath_of_fits {dir : Handle} {path : Text}
    (h : FitsThroughout okmMaxPath (segments '/' path)) :
    resolveBeneath dir path =
      .ok ⟨dir, relName (reducedStack path), (relName (reducedStack path)).length⟩ := by
  have hstack := stack_reduce_segments path
  have hlt : (lexicalReduction path).length < okmMaxPath := h.length_lt (by decide)
  unfold resolveBeneath
  rw [normalise_of_fits h]
  simp only
  rw [copyStr_of_lt hlt, copyStr_of_lt (by decide), List.take_length, lexicalReduction,
    scanUp_joined _ hstack]
  by_cases hnil : reducedStack path = []
  · simp [hnil, relName, here]
  · simp [joined_eq_nil_iff hstack.component, hnil, relName]

theorem resolveBeneath_of_not_fits {dir : Handle} {path : Text}
    (h : ¬ FitsThroughout okmMaxPath (segments '/' path)) :
    resolveBeneath dir path = .error .enametoolong := by
  rw [resolveBeneath, normalise_of_not_fits h]

/-- A relative path given with an open directory whose name is not known is resolved beneath
that directory. -/
theorem okmResolve_of_unnamed {w : PortState} {dirfd : Int} {d : Fin okmMaxDesc} {path : Text}
    (emptyOk : Bool) (hd : w.okmDescOf dirfd = some d) (hkind : (w.desc d).kind = .dir)
    (hname : w.dirName (w.desc d) = none) (hrel : rootLength path = 0) :
    w.okmResolve dirfd (some path) emptyOk =
      if path = [] ∧ emptyOk = false then .error .enoent
      else resolveBeneath (w.desc d).dir path := by
  have hcwd : dirfd ≠ atFdcwd := by
    rintro rfl
    simp [okmDescOf, fdIndex, atFdcwd] at hd
  have hnormal : alreadyNormal path = 0 := by
    simp [alreadyNormal, rootLength_eq_zero_of_head hrel]
  simp [okmResolve, hnormal, hrel, hcwd, hd, hkind, hname]

end PortState

/-! ## Confinement -/

/-- The form in which openkal accepts a remainder: the place itself, or a name without a leading
separator and without an empty, `.` or `..` component; its length is exact and within bounds. -/
def Accepted (at_ : At) : Prop :=
  (at_.rel = here ∨ NormalName '/' here up at_.rel ∧ at_.rel.head? ≠ some '/') ∧
    at_.len = at_.rel.length ∧ at_.len < okmMaxPath

theorem accepted_relName {ds : List Text} (base : Handle) (hds : Stack '/' here up ds)
    (hlen : (joined '/' ds).length < okmMaxPath) :
    Accepted ⟨base, relName ds, (relName ds).length⟩ := by
  refine ⟨?_, rfl, length_relName_lt hlen⟩
  simp only [relName]
  split_ifs with hnil
  · exact Or.inl rfl
  · exact Or.inr ⟨normalName_joined hds hnil, head?_joined_ne hds.component⟩

namespace PortState

/-- **Name resolution confines.** Where no supplied directory is named beneath a volume, whatever
`okm_resolve` returns names a supplied directory or the open directory given, and a remainder in
the form openkal accepts. -/
theorem okmResolve_confined {w : PortState} {dirfd : Int} {path : Option Text} {emptyOk : Bool}
    {at_ : At} (hpre : ∀ p ∈ w.pre, isVolume p.name = false)
    (h : w.okmResolve dirfd path emptyOk = .ok at_) :
    ((∃ p ∈ w.pre, at_.base = p.dir) ∨
      ∃ d, w.okmDescOf dirfd = some d ∧ (w.desc d).kind = .dir ∧ at_.base = (w.desc d).dir) ∧
    Accepted at_ := by
  cases path with
  | none => simp [okmResolve] at h
  | some path =>
    have hne : path ≠ [] ∨ emptyOk = true := by
      by_contra hne
      simp only [not_or, not_not, Bool.not_eq_true] at hne
      simp [okmResolve, hne] at h
    cases hbase : w.joinedTo dirfd path with
    | some base =>
      -- the name is absolute, and a supplied directory starts it
      rcases okmResolve_of_joinedTo hbase hne with he | ⟨hlen, n, hn, he⟩
      · rw [h] at he
        cases he
      · rw [h] at he
        rcases matchPreopen_cases hpre (isForm_lexicalForm base path) hlen hn with
          ⟨hm, -⟩ | ⟨p, hp, -, ds, -, -, -, hds, -, -, hlt, hm⟩
        · rw [hm] at he
          cases he
        · rw [hm] at he
          cases he
          exact ⟨Or.inl ⟨p, hp, rfl⟩, accepted_relName _ hds hlt⟩
    | none =>
      -- the name is used as it stands beneath the open directory
      obtain ⟨d, hd, hkind, hr⟩ := okmResolve_of_not_joinedTo hbase h
      by_cases hfit : FitsThroughout okmMaxPath (segments '/' path)
      · rw [resolveBeneath_of_fits hfit] at hr
        cases hr
        exact ⟨Or.inr ⟨d, hd, hkind, rfl⟩,
          accepted_relName _ (stack_reduce_segments path) (hfit.length_lt (by decide))⟩
      · rw [resolveBeneath_of_not_fits hfit] at hr
        cases hr

theorem okmResolve_confined_supplied :
    (okmTableInit 1 .supplied).okmResolve atFdcwd (some ['a', '/', '.', '.', '/', 'b']) false =
        .ok ⟨7, ['b'], 1⟩ ∧
      Accepted ⟨7, ['b'], 1⟩ := by
  have h : (okmTableInit 1 .supplied).okmResolve atFdcwd
      (some ['a', '/', '.', '.', '/', 'b']) false = .ok ⟨7, ['b'], 1⟩ := by decide +kernel
  exact ⟨h, (okmResolve_confined (by decide +kernel) h).2⟩

end PortState

/-! ## The longest supplied directory -/

/-- A supplied name that is lexically normal and spelled beneath no volume: the root, or a
separator and a joined stack. -/
def SuppliedName (name : Text) : Prop :=
  isVolume name = false ∧ ∃ cs, Stack '/' here up cs ∧ name = '/' :: joined '/' cs

/-- `name` is a whole-component start of `form`. -/
def WholeStart (name form : Text) : Prop :=
  name = form ∨ name ++ ['/'] <+: form ∨ name = ['/'] ∧ name <+: form

/-- A name and a remainder joined by exactly one separator, which the root has already; the name
alone where the remainder is the place itself. -/
def rejoined (name rel : Text) : Text :=
  if rel = here then name else if name = ['/'] then name ++ rel else name ++ '/' :: rel

theorem SuppliedName.getLast?_iff {name : Text} (h : SuppliedName name) :
    name.getLast? = some '/' ↔ name = ['/'] := by
  obtain ⟨-, cs, hcs, rfl⟩ := h
  by_cases hnil : cs = []
  · simp [hnil]
  · have hj : joined '/' cs ≠ [] := by simpa [joined_eq_nil_iff hcs.component] using hnil
    rw [List.getLast?_cons_of_ne_nil hj]
    simp [getLast?_joined_ne hcs.component, hj]

theorem SuppliedName.isPrefixAtBoundary_iff_wholeStart {name form : Text} (h : SuppliedName name) :
    isPrefixAtBoundary name form = true ↔ WholeStart name form := by
  have hne : name ≠ [] := by
    obtain ⟨-, cs, -, rfl⟩ := h
    simp
  rw [isPrefixAtBoundary_iff h.1, WholeStart]
  constructor
  · rintro ⟨-, q, rfl, hb | hb | hb | hb⟩
    · exact absurd hb hne
    · -- a name that ends in a separator is the root
      exact Or.inr (Or.inr ⟨h.getLast?_iff.mp hb, List.prefix_append _ _⟩)
    · exact Or.inl (by simp [hb])
    · obtain ⟨q, rfl⟩ : ∃ q', q = '/' :: q' := by
        cases q with
        | nil => simp at hb
        | cons a q => exact ⟨q, by simpa using hb⟩
      exact Or.inr (Or.inl ⟨q, by simp⟩)
  · rintro (rfl | ⟨q, rfl⟩ | ⟨he, q, rfl⟩)
    · exact ⟨hne, [], by simp, Or.inr (Or.inr (Or.inl rfl))⟩
    · exact ⟨hne, '/' :: q, by simp, Or.inr (Or.inr (Or.inr rfl))⟩
    · exact ⟨hne, q, rfl, Or.inr (Or.inl (h.getLast?_iff.mpr he))⟩

/-- No lexical form begins with two separators. -/
theorem IsForm.second_ne {t : Text} : ¬ IsForm ('/' :: '/' :: t) := by
  rintro ⟨root, cs, hcs, he, rfl | rfl | ⟨hroot, hcolon⟩⟩
  · exact head?_joined_ne hcs.component (by rw [← List.nil_append (joined '/' cs), ← he]; rfl)
  · refine head?_joined_ne hcs.component ?_
    obtain h : '/' :: t = joined '/' cs := by simpa using he
    rw [← h]
    rfl
  · cases root with
    | nil => simp at hcolon
    | cons a root =>
      obtain rfl : '/' = a := by simpa using congrArg List.head? he
      simp at hroot

/-- The supplied name and the remainder spell the form again. -/
theorem SuppliedName.rejoined_eq {name q : Text} {ds : List Text} (h : SuppliedName name)
    (hform : IsForm (name ++ q)) (hb : Boundary '/' name q) (hds : Stack '/' here up ds)
    (hq : q = joined '/' ds ∨ ds ≠ [] ∧ q = '/' :: joined '/' ds) :
    rejoined name (relName ds) = name ++ q := by
  unfold rejoined
  simp only [relName_eq_here_iff hds]
  by_cases hnil : ds = []
  · subst hnil
    rcases hq with rfl | ⟨hne, -⟩
    · simp
    · exact absurd rfl hne
  rw [if_neg hnil, relName, if_neg hnil]
  by_cases hroot : name = ['/']
  · rw [if_pos hroot]
    rcases hq with rfl | ⟨-, rfl⟩
    · rfl
    · -- a second separator behind the root
      rw [hroot] at hform
      exact absurd hform IsForm.second_ne
  · rw [if_neg hroot]
    rcases hq with rfl | ⟨-, rfl⟩
    · -- without a separator between them the boundary would be one of the name or of the stack
      exfalso
      rcases hb with hb | hb | hb | hb
      · obtain ⟨-, cs, -, rfl⟩ := h
        simp at hb
      · exact hroot (h.getLast?_iff.mp hb)
      · exact hnil ((joined_eq_nil_iff hds.component).mp hb)
      · exact head?_joined_ne hds.component hb
    · rfl

namespace PortState

/-- **The longest supplied directory is chosen and the name is reconstructed.** A path that has an
absolute form and is not too long is not found exactly where no supplied name is a
whole-component start of that form; otherwise the base is the supplied directory with the longest
such name, and that name and the remainder spell the form. -/
theorem okmResolve_longest {w : PortState} {dirfd : Int} {path base : Text} {emptyOk : Bool}
    (hdistinct : (w.pre.map Preopen.name).Nodup) (hnames : ∀ p ∈ w.pre, SuppliedName p.name)
    (hpath : path ≠ []) (hbase : w.joinedTo dirfd path = some base)
    (hlong : w.okmResolve dirfd (some path) emptyOk ≠ .error .enametoolong) :
    (w.okmResolve dirfd (some path) emptyOk = .error .enoent ↔
      ∀ p ∈ w.pre, ¬ WholeStart p.name (lexicalForm base path)) ∧
    ((∃ p ∈ w.pre, WholeStart p.name (lexicalForm base path)) →
      ∃ p ∈ w.pre, WholeStart p.name (lexicalForm base path) ∧
        (∀ q ∈ w.pre, q ≠ p → WholeStart q.name (lexicalForm base path) →
          q.name.length < p.name.length) ∧
        ∃ at_, w.okmResolve dirfd (some path) emptyOk = .ok at_ ∧ at_.base = p.dir ∧
          rejoined p.name at_.rel = lexicalForm base path ∧ at_.len = at_.rel.length) := by
  obtain ⟨hlen, n, hn, he⟩ := (okmResolve_of_joinedTo hbase (Or.inl hpath)).resolve_left hlong
  have hform := isForm_lexicalForm base path
  have hpre : ∀ p ∈ w.pre, isVolume p.name = false := fun p hp => (hnames p hp).1
  have hiff : ∀ p ∈ w.pre, isPrefixAtBoundary p.name (lexicalForm base path) = true ↔
      WholeStart p.name (lexicalForm base path) := fun p hp =>
    (hnames p hp).isPrefixAtBoundary_iff_wholeStart
  rw [he]
  rcases matchPreopen_cases hpre hform hlen hn with
    ⟨hm, hnone⟩ | ⟨p, hp, q, ds, hq, hb, hne, hds, hrest, hle, hlt, hm⟩
  · -- none of them starts the form
    have hno : ∀ p ∈ w.pre, ¬ WholeStart p.name (lexicalForm base path) := fun p hp hs => by
      have := (hiff p hp).mpr hs
      rw [hnone p hp] at this
      exact absurd this (by simp)
    refine ⟨⟨fun _ => hno, fun _ => hm⟩, ?_⟩
    rintro ⟨p, hp, hs⟩
    exact absurd hs (hno p hp)
  · have hstart : WholeStart p.name (lexicalForm base path) :=
      (hiff p hp).mp ((isPrefixAtBoundary_iff (hpre p hp)).mpr ⟨hne, q, hq, hb⟩)
    refine ⟨⟨fun h => by simp [hm] at h, fun h => absurd hstart (h p hp)⟩, fun _ => ?_⟩
    refine ⟨p, hp, hstart, ?_, _, hm, rfl, ?_, rfl⟩
    · intro r hr hrp hs
      refine lt_of_le_of_ne (hle r hr ((hiff r hr).mpr hs)) fun hlen' => hrp ?_
      -- two starts of one name that are equally long are the same name
      obtain ⟨-, q', hq', -⟩ := (isPrefixAtBoundary_iff (hpre r hr)).mp ((hiff r hr).mpr hs)
      have hname : r.name = p.name := (List.append_inj (hq'.symm.trans hq) hlen').1
      exact List.inj_on_of_nodup_map hdistinct hr hp hname
    · rw [hq] at hform
      rw [(hnames p hp).rejoined_eq hform hb hds hrest, ← hq]

theorem suppliedName_supplied :
    ∀ p ∈ (okmTableInit 1 .supplied).pre, SuppliedName p.name := by
  have hpre : (okmTableInit 1 .supplied).pre = [⟨7, ['/']⟩, ⟨8, ['/', 'a']⟩] := by
    decide +kernel
  intro p hp
  rw [hpre] at hp
  rcases List.mem_cons.mp hp with rfl | hp
  · exact ⟨rfl, [], by simp [Stack], rfl⟩
  · obtain rfl := List.mem_singleton.mp hp
    refine ⟨rfl, [['a']], fun c hc => ?_, by simp⟩
    obtain rfl := List.mem_singleton.mp hc
    decide

theorem okmResolve_longest_supplied :
    ((okmTableInit 1 .supplied).okmResolve atFdcwd (some ['a', '/', 'b']) false =
        .error .enoent ↔
      ∀ p ∈ (okmTableInit 1 .supplied).pre,
        ¬ WholeStart p.name (lexicalForm ['/'] ['a', '/', 'b'])) ∧
    ((∃ p ∈ (okmTableInit 1 .supplied).pre,
        WholeStart p.name (lexicalForm ['/'] ['a', '/', 'b'])) →
      ∃ p ∈ (okmTableInit 1 .supplied).pre,
        WholeStart p.name (lexicalForm ['/'] ['a', '/', 'b']) ∧
        (∀ q ∈ (okmTableInit 1 .supplied).pre, q ≠ p →
          WholeStart q.name (lexicalForm ['/'] ['a', '/', 'b']) →
            q.name.length < p.name.length) ∧
        ∃ at_, (okmTableInit 1 .supplied).okmResolve atFdcwd (some ['a', '/', 'b']) false =
            .ok at_ ∧ at_.base = p.dir ∧
          rejoined p.name at_.rel = lexicalForm ['/'] ['a', '/', 'b'] ∧
          at_.len = at_.rel.length) :=
  okmResolve_longest (by decide +kernel) suppliedName_supplied (by decide) (by decide +kernel)
    (by decide +kernel)

/-! ## Ascending from a directory whose name is not known -/

/-- A reduced name with no room for a separator before it and the terminating zero behind it. -/
def TooLong (name : Text) : Prop := okmMaxPath < name.length + 2

/-- What the source says of a directory whose name is not known: a path that ascends from it is
refused, and any other whose reduction is not too long is used beneath its handle. -/
def AscentRefused (w : PortState) (dirfd : Int) (d : Fin okmMaxDesc) (path : Text)
    (emptyOk : Bool) : Prop :=
  (Ascends here up (segments '/' path) →
    w.okmResolve dirfd (some path) emptyOk = .error .eacces) ∧
  (¬ Ascends here up (segments '/' path) → ¬ TooLong (lexicalReduction path) →
    w.okmResolve dirfd (some path) emptyOk =
      .ok ⟨(w.desc d).dir, relName (reducedStack path), (relName (reducedStack path)).length⟩)

/-- A path is never refused because it ascends: `normalise` has dropped the ascent. -/
theorem resolveBeneath_ne_eacces (dir : Handle) (path : Text) :
    resolveBeneath dir path ≠ .error .eacces := by
  by_cases hfit : FitsThroughout okmMaxPath (segments '/' path)
  · rw [resolveBeneath_of_fits hfit]
    simp
  · rw [resolveBeneath_of_not_fits hfit]
    simp

/-- **When a directory of unknown name is left by no name that ascends**: exactly for the paths
that do not ascend, are not refused for being empty, and are too long once reduced or fit at every
point they are read. -/
theorem ascentRefused_iff {w : PortState} {dirfd : Int} {d : Fin okmMaxDesc} {path : Text}
    {emptyOk : Bool} (hd : w.okmDescOf dirfd = some d) (hkind : (w.desc d).kind = .dir)
    (hname : w.dirName (w.desc d) = none) (hrel : rootLength path = 0) :
    w.AscentRefused dirfd d path emptyOk ↔
      ¬ Ascends here up (segments '/' path) ∧
        (TooLong (lexicalReduction path) ∨
          (path ≠ [] ∨ emptyOk = true) ∧ FitsThroughout okmMaxPath (segments '/' path)) := by
  have heq := okmResolve_of_unnamed emptyOk hd hkind hname hrel
  unfold AscentRefused
  rw [heq]
  by_cases hasc : Ascends here up (segments '/' path)
  · -- an ascending path is to be refused, and is not
    simp only [hasc, not_true_eq_false, false_and, iff_false, not_and]
    intro h
    have he := h trivial
    split_ifs at he with hempty
    · cases he
    · exact absurd he (resolveBeneath_ne_eacces _ _)
  simp only [hasc, not_false_eq_true, false_implies, true_and, forall_true_left]
  rw [or_iff_not_imp_left]
  refine imp_congr_right fun _ => ?_
  -- Otherwise what is required is what `resolveBeneath` answers where the path fits.
  by_cases hempty : path = [] ∧ emptyOk = false
  · simp [hempty]
  · rw [if_neg hempty]
    have hne : path ≠ [] ∨ emptyOk = true := by
      by_contra hne
      exact hempty (by simpa using hne)
    by_cases hfit : FitsThroughout okmMaxPath (segments '/' path)
    · simp [resolveBeneath_of_fits hfit, hfit, hne]
    · simp [resolveBeneath_of_not_fits hfit, hfit]

/-- A table in which descriptor 3 is a directory whose name was too long to be kept in its slot
and for which no memory was left. -/
def unnamedTable : PortState :=
  ((okmTableInit 1 .supplied).okmFdBind 1 3 .dir 0 0 9 oDirectory).1.okmDirRemember 3
    ('/' :: List.replicate 600 'a') none

theorem unnamedTable_dir :
    unnamedTable.okmDescOf 3 = some ⟨3, by decide⟩ ∧
      (unnamedTable.desc ⟨3, by decide⟩).kind = .dir ∧
      unnamedTable.dirName (unnamedTable.desc ⟨3, by decide⟩) = none := by
  decide +kernel

theorem ascentRefused_iff_unnamedTable :
    rootLength ['b'] = 0 ∧
      (unnamedTable.AscentRefused 3 ⟨3, by decide⟩ ['b'] false ↔
        ¬ Ascends here up (segments '/' ['b']) ∧
          (TooLong (lexicalReduction ['b']) ∨
            (['b'] ≠ [] ∨ false = true) ∧ FitsThroughout okmMaxPath (segments '/' ['b']))) :=
  ⟨by decide, ascentRefused_iff unnamedTable_dir.1 unnamedTable_dir.2.1 unnamedTable_dir.2.2
    (by decide)⟩

/-- A name that ascends is accepted, and names a file beneath the directory instead. -/
theorem ascent_not_refused :
    unnamedTable.okmDescOf 3 = some ⟨3, by decide⟩ ∧
      (unnamedTable.desc ⟨3, by decide⟩).kind = .dir ∧
      unnamedTable.dirName (unnamedTable.desc ⟨3, by decide⟩) = none ∧
      rootLength ['.', '.', '/', 'b'] = 0 ∧
      Ascends here up (segments '/' ['.', '.', '/', 'b']) ∧
      unnamedTable.okmResolve 3 (some ['.', '.', '/', 'b']) false = .ok ⟨9, ['b'], 1⟩ ∧
      ¬ unnamedTable.AscentRefused 3 ⟨3, by decide⟩ ['.', '.', '/', 'b'] false := by
  have hasc : Ascends here up (segments '/' ['.', '.', '/', 'b']) := by decide
  have hres : unnamedTable.okmResolve 3 (some ['.', '.', '/', 'b']) false = .ok ⟨9, ['b'], 1⟩ := by
    decide +kernel
  refine ⟨unnamedTable_dir.1, unnamedTable_dir.2.1, unnamedTable_dir.2.2, by decide, hasc, hres, ?_⟩
  intro h
  rw [h.1 hasc] at hres
  cases hres

end PortState

end OpenkalMusl
