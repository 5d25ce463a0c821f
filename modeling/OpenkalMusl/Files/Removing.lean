import OpenkalMusl.Names.NullDevice

/-!
# Removing a name

`unlinkat`, `unlink` and `rmdir` resolve a name and ask the environment to remove what it refers to.
The environment has one operation for it, which removes a file, a link or a directory that holds
nothing.

What the environment holds is a tree of directories, in which every node is in a directory. How it
walks from a directory along a name, where it does not follow a link the name ends in, and what it
refuses for reasons of its own are parameters.

## Main definitions

* `DirectoryTree`: the tree, and `DirectoryTree.without`, the tree without a node
* `TreeEnv.kalFsRemove`: the environment's operation
* `RemoveCall.run`: the calls

## Main results

* `RemoveCall.run_result`: the calls answer what `unlinkat` answers in an environment of one state
* `removal_kept_iff`: when a removal respects what a name is
-/

namespace OpenkalMusl

/-- Where a node is: the names from the root. -/
abbrev Place := List Text

/-- What a node is. -/
inductive TreeNode where
  | file | directory | link
  deriving DecidableEq, Repr

/-- A tree of directories. A place at which something is held is a directory's. -/
structure DirectoryTree where
  node : Place → Option TreeNode
  entries : Place → List Text
  mem_entries : ∀ p name, name ∈ entries p ↔ node (p ++ [name]) ≠ none
  closed : ∀ p, entries p ≠ [] → node p = some .directory

namespace DirectoryTree

/-- The tree without a node that holds nothing. -/
def without (t : DirectoryTree) (p : Place) (h : t.entries p = []) : DirectoryTree where
  node := Function.update t.node p none
  entries q := (t.entries q).filter fun name => q ++ [name] ≠ p
  mem_entries := by
    intro q name
    rw [List.mem_filter, t.mem_entries, decide_eq_true_eq]
    by_cases hq : q ++ [name] = p
    · simp [hq]
    · simp [hq]
  closed := by
    intro q hq
    have hentries : t.entries q ≠ [] := by
      intro hnil
      rw [hnil] at hq
      exact hq rfl
    have hne : q ≠ p := by
      rintro rfl
      exact hentries h
    rw [Function.update_of_ne hne]
    exact t.closed q hentries

@[simp] theorem without_node_self (t : DirectoryTree) (p : Place) (h : t.entries p = []) :
    (t.without p h).node p = none := by
  show Function.update t.node p none p = none
  rw [Function.update_self]

/-- Only a directory holds anything. -/
theorem entries_eq_nil {t : DirectoryTree} {p : Place} {k : TreeNode} (h : t.node p = some k)
    (hk : k ≠ .directory) : t.entries p = [] := by
  by_contra hne
  rw [t.closed p hne] at h
  exact hk (Option.some.inj h).symm

end DirectoryTree

/-- The environment: how it walks along a name, and what it refuses for other reasons. -/
structure TreeEnv where
  refers : DirectoryTree → At → Option Place
  denies : DirectoryTree → At → Option KalError

/-- `kal_fs_remove`. -/
def TreeEnv.kalFsRemove (v : TreeEnv) (t : DirectoryTree) (a : At) :
    DirectoryTree × Option KalError :=
  match v.denies t a with
  | some e => (t, some e)
  | none =>
    match v.refers t a with
    | none => (t, some .notFound)
    | some p =>
      if t.node p = none then (t, some .notFound)
      -- of what is not a directory there are no entries
      else if h : t.entries p = [] then (t.without p h, none)
      else (t, some .notEmpty)

def atRemovedir : ℕ := 0x200

/-- The calls that remove a name. -/
inductive RemoveCall where
  | unlinkat (dirfd : Int) (path : Option Text) (flags : ℕ)
  | unlink (path : Option Text)
  | rmdir (path : Option Text)
  deriving DecidableEq, Repr

namespace RemoveCall

/-- The directory a name is resolved from. -/
def dirfd : RemoveCall → Int
  | unlinkat dirfd _ _ => dirfd
  | unlink _ | rmdir _ => atFdcwd

def path : RemoveCall → Option Text
  | unlinkat _ path _ | unlink path | rmdir path => path

/-- The call asks for a directory to be removed. -/
def WantsDirectory : RemoveCall → Prop
  | unlinkat _ _ flags => hasFlag flags atRemovedir
  | unlink _ => False
  | rmdir _ => True

/-- The calls, which read no flag. -/
def run (w : PortState) (v : TreeEnv) (t : DirectoryTree) (c : RemoveCall) :
    DirectoryTree × Except Errno NameAnswer :=
  match w.okmResolve c.dirfd c.path false with
  | .error e => (t, .error e)
  | .ok a =>
    let (t, e) := v.kalFsRemove t a
    (t, (Asking.ofKal e).result)

/-- **What the calls answer** is what `unlinkat` answers, where the environment is one whose tree is
this one. -/
theorem run_result (w : PortState) (v : TreeEnv) (t : DirectoryTree) (c : RemoveCall)
    (env : NameEnv) :
    (c.run w v t).2 =
      (w.unlinkat { env with remove := fun a => (v.kalFsRemove t a).2 } c.dirfd c.path).result := by
  unfold run PortState.unlinkat PortState.resolving
  cases w.okmResolve c.dirfd c.path false with
  | error e => rfl
  | ok a => rfl

/-- The node the call's name refers to, with its place. -/
def Target (w : PortState) (v : TreeEnv) (t : DirectoryTree) (c : RemoveCall) (p : Place)
    (k : TreeNode) : Prop :=
  ∃ a, w.okmResolve c.dirfd c.path false = .ok a ∧ v.refers t a = some p ∧ t.node p = some k

/-- What the environment refuses the call's name with, for a reason of its own. -/
def Denied (w : PortState) (v : TreeEnv) (t : DirectoryTree) (c : RemoveCall) (e : KalError) :
    Prop :=
  ∃ a, w.okmResolve c.dirfd c.path false = .ok a ∧ v.denies t a = some e

end RemoveCall

open RemoveCall

/-- **What is promised of a removal**: nothing goes but what the name refers to, and that only where
it is a directory exactly if one was to go; another node is refused as what it is or is not; and
what is refused leaves the tree. -/
structure RemovalKept (w : PortState) (v : TreeEnv) (t : DirectoryTree) (c : RemoveCall) :
    Prop where
  removes : ∀ q, (c.run w v t).1.node q ≠ t.node q →
    (c.run w v t).1.node q = none ∧
      ∃ k, c.Target w v t q k ∧ (c.WantsDirectory ↔ k = .directory)
  enotdir : ∀ p k, c.Target w v t p k → c.WantsDirectory → k ≠ .directory →
    (c.run w v t).2 = .error .enotdir
  eisdir : ∀ p, c.Target w v t p .directory → ¬c.WantsDirectory →
    (c.run w v t).2 = .error .eisdir
  unchanged : ∀ e, (c.run w v t).2 = .error e → (c.run w v t).1 = t

section Runs

variable {w : PortState} {v : TreeEnv} {t : DirectoryTree} {c : RemoveCall}

/-- What is refused leaves the tree. -/
theorem kalFsRemove_unchanged {a : At} {e : KalError} (h : (v.kalFsRemove t a).2 = some e) :
    (v.kalFsRemove t a).1 = t := by
  unfold TreeEnv.kalFsRemove at h ⊢
  cases hdeny : v.denies t a with
  | some e => rfl
  | none =>
    simp only [hdeny] at h
    cases hp : v.refers t a with
    | none => rfl
    | some p =>
      simp only [hp] at h
      dsimp only
      by_cases hnone : t.node p = none
      · rw [if_pos hnone]
      · rw [if_neg hnone] at h ⊢
        by_cases hnil : t.entries p = []
        · rw [dif_pos hnil] at h
          cases h
        · rw [dif_neg hnil]

/-- What goes is what the name refers to. -/
theorem kalFsRemove_changed {a : At} {q : Place} (h : (v.kalFsRemove t a).1.node q ≠ t.node q) :
    (v.kalFsRemove t a).1.node q = none ∧ (v.kalFsRemove t a).2 = none ∧
      v.denies t a = none ∧ v.refers t a = some q ∧ t.node q ≠ none := by
  unfold TreeEnv.kalFsRemove at h ⊢
  cases hdeny : v.denies t a with
  | some e => simp [hdeny] at h
  | none =>
    simp only [hdeny] at h ⊢
    cases hp : v.refers t a with
    | none => simp [hp] at h
    | some p =>
      simp only [hp] at h ⊢
      by_cases hnone : t.node p = none
      · simp [hnone] at h
      · rw [if_neg hnone] at h ⊢
        by_cases hnil : t.entries p = []
        · rw [dif_pos hnil] at h ⊢
          -- one node goes, so it is the one whose place changed
          have hq : q = p := by
            by_contra hne
            exact h (Function.update_of_ne hne _ _)
          subst hq
          exact ⟨t.without_node_self q hnil, rfl, trivial, rfl, hnone⟩
        · rw [dif_neg hnil] at h
          exact absurd rfl h

/-- A node that is there goes, or is a directory that holds something. -/
theorem kalFsRemove_answer {a : At} {p : Place} {k : TreeNode} (hdeny : v.denies t a = none)
    (hp : v.refers t a = some p) (hk : t.node p = some k) :
    (v.kalFsRemove t a).2 = none ∨
      ((v.kalFsRemove t a).2 = some .notEmpty ∧ k = .directory) := by
  unfold TreeEnv.kalFsRemove
  simp only [hdeny, hp, hk, reduceCtorEq, if_false]
  by_cases hnil : t.entries p = []
  · rw [dif_pos hnil]
    exact Or.inl rfl
  · rw [dif_neg hnil]
    refine Or.inr ⟨rfl, ?_⟩
    by_contra hdir
    exact hnil (DirectoryTree.entries_eq_nil hk hdir)

theorem run_of_resolve {a : At} (h : w.okmResolve c.dirfd c.path false = .ok a) :
    c.run w v t = ((v.kalFsRemove t a).1, (Asking.ofKal (v.kalFsRemove t a).2).result) := by
  unfold RemoveCall.run
  rw [h]

/-- **A call that is refused leaves the tree.** -/
theorem run_unchanged {e : Errno} (h : (c.run w v t).2 = .error e) : (c.run w v t).1 = t := by
  cases hr : w.okmResolve c.dirfd c.path false with
  | error e' =>
    unfold RemoveCall.run
    rw [hr]
  | ok a =>
    rw [run_of_resolve hr] at h ⊢
    cases hans : (v.kalFsRemove t a).2 with
    | none =>
      rw [hans] at h
      cases h
    | some e' => exact kalFsRemove_unchanged hans

/-- **What a call removes** is what its name refers to. -/
theorem run_changed {q : Place} (h : (c.run w v t).1.node q ≠ t.node q) :
    (c.run w v t).1.node q = none ∧ (c.run w v t).2 = .ok .done ∧ (∀ e, ¬c.Denied w v t e) ∧
      ∃ k, c.Target w v t q k := by
  cases hr : w.okmResolve c.dirfd c.path false with
  | error e' =>
    unfold RemoveCall.run at h
    rw [hr] at h
    exact absurd rfl h
  | ok a =>
    rw [run_of_resolve hr] at h ⊢
    obtain ⟨hgone, hans, hdeny, hrefers, hthere⟩ := kalFsRemove_changed h
    obtain ⟨k, hk⟩ := Option.ne_none_iff_exists'.mp hthere
    refine ⟨hgone, by rw [hans]; rfl, ?_, k, a, hr, hrefers, hk⟩
    rintro e ⟨a', hr', he⟩
    obtain rfl := Except.ok.inj (hr.symm.trans hr')
    rw [hdeny] at he
    cases he

/-- **What a call answers for a node that is there**: what it is refused with for another reason, or
that it goes, or that it is a directory that holds something. -/
theorem run_answer {p : Place} {k : TreeNode} (h : c.Target w v t p k) :
    (∃ e, c.Denied w v t e ∧ (c.run w v t).2 = .error (okmErrno e)) ∨
      (c.run w v t).2 = .ok .done ∨
        ((c.run w v t).2 = .error .enotempty ∧ k = .directory) := by
  obtain ⟨a, hr, hp, hk⟩ := h
  rw [run_of_resolve hr]
  cases hdeny : v.denies t a with
  | some e =>
    refine Or.inl ⟨e, ⟨a, hr, hdeny⟩, ?_⟩
    unfold TreeEnv.kalFsRemove
    rw [hdeny]
    rfl
  | none =>
    rcases kalFsRemove_answer hdeny hp hk with hgone | ⟨hheld, hdir⟩
    · exact Or.inr (Or.inl (by rw [hgone]; rfl))
    · exact Or.inr (Or.inr ⟨by rw [hheld]; rfl, hdir⟩)

/-- What is refused for another reason is refused so. -/
theorem run_of_denied {e : KalError} (h : c.Denied w v t e) :
    c.run w v t = (t, .error (okmErrno e)) := by
  obtain ⟨a, hr, hdeny⟩ := h
  rw [run_of_resolve hr]
  unfold TreeEnv.kalFsRemove
  rw [hdeny]
  rfl

/-- A node the environment itself does not refuse is not refused as what it is or is not. -/
theorem denied_of_run {p : Place} {k : TreeNode} (h : c.Target w v t p k) {e : Errno}
    (hne : e ≠ .enotempty) (hrun : (c.run w v t).2 = .error e) :
    ∃ d, c.Denied w v t d ∧ okmErrno d = e := by
  rcases run_answer h with ⟨d, hdenied, hanswer⟩ | hdone | ⟨hheld, -⟩
  · rw [hanswer] at hrun
    exact ⟨d, hdenied, Except.error.inj hrun⟩
  · rw [hdone] at hrun
    cases hrun
  · rw [hheld] at hrun
    exact absurd (Except.error.inj hrun).symm hne

end Runs

/-- **When a removal respects what a name is**: exactly where the name refers to nothing, to a
directory if one is to go, or to another node if none is; or the environment refuses the removal by
itself with the error for what the name refers to. -/
theorem removal_kept_iff (w : PortState) (v : TreeEnv) (t : DirectoryTree) (c : RemoveCall) :
    RemovalKept w v t c ↔
      ∀ p k, c.Target w v t p k →
        (c.WantsDirectory ↔ k = .directory) ∨
          (c.WantsDirectory ∧ c.Denied w v t .notDirectory) ∨
            (¬c.WantsDirectory ∧ c.Denied w v t .isDirectory) := by
  constructor
  · intro hkept p k htarget
    by_cases hwants : c.WantsDirectory
    · by_cases hdir : k = .directory
      · exact Or.inl (iff_of_true hwants hdir)
      · -- the port gives this error for nothing of its own
        have hrun := hkept.enotdir p k htarget hwants hdir
        obtain ⟨d, hdenied, hd⟩ := denied_of_run htarget (by decide) hrun
        rw [(okmErrno_eq_iff .notDirectory (by decide)).mp hd] at hdenied
        exact Or.inr (Or.inl ⟨hwants, hdenied⟩)
    · by_cases hdir : k = .directory
      · subst hdir
        have hrun := hkept.eisdir p htarget hwants
        obtain ⟨d, hdenied, hd⟩ := denied_of_run htarget (by decide) hrun
        rw [(okmErrno_eq_iff .isDirectory (by decide)).mp hd] at hdenied
        exact Or.inr (Or.inr ⟨hwants, hdenied⟩)
      · exact Or.inl (iff_of_false hwants hdir)
  · -- what is removed was not denied, so that only the first of the three is left for it
    intro hcond
    refine ⟨fun q hq => ?_, fun p k htarget hwants hdir => ?_, fun p htarget hwants => ?_,
      fun e he => run_unchanged he⟩
    · obtain ⟨hgone, -, hfree, k, htarget⟩ := run_changed hq
      refine ⟨hgone, k, htarget, ?_⟩
      rcases hcond q k htarget with hiff | ⟨-, hdenied⟩ | ⟨-, hdenied⟩
      · exact hiff
      · exact absurd hdenied (hfree _)
      · exact absurd hdenied (hfree _)
    · rcases hcond p k htarget with hiff | ⟨-, hdenied⟩ | ⟨hnot, -⟩
      · exact absurd (hiff.mp hwants) hdir
      · rw [run_of_denied hdenied]
        rfl
      · exact absurd hwants hnot
    · rcases hcond p _ htarget with hiff | ⟨hnot, -⟩ | ⟨-, hdenied⟩
      · exact absurd (hiff.mpr rfl) hwants
      · exact absurd hnot hwants
      · rw [run_of_denied hdenied]
        rfl

/-- A tree of one empty directory in the root. -/
def oneDirectory : DirectoryTree where
  node p := if p = [] ∨ p = [['d']] then some .directory else none
  entries p := if p = [] then [['d']] else []
  mem_entries := by
    intro p name
    by_cases hp : p = []
    · subst hp
      simp
    · simp [hp, List.append_eq_singleton_iff]
  closed := by
    intro p hp
    by_cases hnil : p = []
    · rw [if_pos (Or.inl hnil)]
    · rw [if_neg hnil] at hp
      exact absurd rfl hp

/-- An environment that refuses nothing and in which each name is one in the root. -/
def TreeEnv.flat : TreeEnv where
  refers _ a := some [a.rel]
  denies _ _ := none

/-- `unlink` removes an empty directory. -/
theorem unlink_removes_directory :
    ¬ ∀ (w : PortState) (v : TreeEnv) (t : DirectoryTree) (c : RemoveCall),
      RemovalKept w v t c := by
  intro hall
  have hkept := hall (System.start 1 .supplied).port .flat oneDirectory (.unlink (some ['d']))
  have hdone : ((RemoveCall.unlink (some ['d'])).run (System.start 1 .supplied).port .flat
      oneDirectory).2 = .ok .done := by
    decide +kernel
  have hresolve : ((System.start 1 .supplied).port.okmResolve atFdcwd (some ['d']) false).map
      (fun a => a.rel) = .ok ['d'] := by
    decide +kernel
  cases hr : (System.start 1 .supplied).port.okmResolve atFdcwd (some ['d']) false with
  | error e =>
    rw [hr] at hresolve
    cases hresolve
  | ok a =>
    rw [hr] at hresolve
    have hrel : a.rel = ['d'] := Except.ok.inj hresolve
    have htarget : (RemoveCall.unlink (some ['d'])).Target (System.start 1 .supplied).port .flat
        oneDirectory [['d']] .directory :=
      ⟨a, hr, by rw [← hrel]; rfl, rfl⟩
    have hrefused := hkept.eisdir _ htarget id
    rw [hdone] at hrefused
    cases hrefused

end OpenkalMusl
