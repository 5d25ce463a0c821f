import OpenkalMusl.Descriptors.WorkingDirectory

/-!
# The shortcuts of name resolution

Two questions about a name are answered without resolving it. `already_normal` takes an absolute
name as it stands, and `okm_resolve` then neither joins nor normalises it. `okm_null_name` looks
at the last component first, because the null device is asked about on every open.

Both answer for a path that the slow path answers for too, so each has to agree with it. The
second does for every path. The first does not at one length: a name of one component may be one
character longer than `normalise` has room for behind the root.

## Main definitions

* `ShortcutAgrees path`: a path taken as it stands is the path the other functions speak of

## Main results

* `shortcutAgrees_iff`: when a path taken as it stands is spoken of by every function
* `okmNullName_eq`: the test of the last component rejects no name of the null device
-/

namespace OpenkalMusl

open Lexical PortState

/-! ## Names taken as they stand -/

/-- What the shortcut of `okm_resolve` promises the functions that join: a path it takes is its own
join, so `okm_absolute` gives that name, `okm_resolve` resolves what `okm_absolute` gives,
`okm_chdir` records it, and `okm_null_name` compares it. -/
def ShortcutAgrees (path : Text) : Prop :=
  alreadyNormal path ≠ 0 →
    join [] path okmMaxPath = .ok path ∧
    ∀ (w : PortState) (dirfd : Int),
      w.okmAbsolute dirfd (some path) okmMaxPath = .ok path ∧
      (∀ emptyOk, w.okmResolve dirfd (some path) emptyOk =
        (w.okmAbsolute dirfd (some path) okmMaxPath).bind fun abs => w.matchPreopen abs 0) ∧
      (w.okmNullName dirfd (some path) = true ↔ path = nullDevice) ∧
      ∀ env at_ target, w.okmResolve dirfd (some path) false = .ok at_ →
        env.openDir = .ok target →
        w.okmChdir env dirfd (some path) = ⟨w.setCwd target path, .ok 0, [.dir target]⟩

/-- A path taken as it stands is its own join, unless it is one component that takes every
character a name may have. -/
theorem join_nil_of_stack {path : Text} {cs : List Text} (hcs : Stack '/' here up cs)
    (hpath : path = '/' :: joined '/' cs) (hlen : path.length < okmMaxPath) :
    join [] path okmMaxPath =
      if path.length = okmMaxPath - 1 ∧ '/' ∉ joined '/' cs then .error .enametoolong
      else .ok path := by
  subst hpath
  have hroot : rootLength ('/' :: joined '/' cs) = 1 := by simp [rootLength]
  have hjlen : (joined '/' cs).length + 1 < okmMaxPath := by simpa using hlen
  have hbuf : joinBuffer [] (joined '/' cs) = joined '/' cs := by
    simp only [joinBuffer, List.take_nil, ne_eq, not_true_eq_false, false_and, if_false,
      List.nil_append, List.length_nil]
    exact List.take_of_length_le (by omega)
  have hjoin : join [] ('/' :: joined '/' cs) okmMaxPath =
      (normalise (joined '/' cs) (okmMaxPath - 1)).map (['/'] ++ ·) := by
    simp only [join, hroot, ne_eq, one_ne_zero, not_false_eq_true, if_true, List.drop_succ_cons,
      List.drop_zero, hbuf]
    rw [if_neg (by omega), if_neg (by decide)]
    simp [slashed]
  rw [hjoin]
  have hseg := segments_joined hcs.component
  split_ifs with hone
  · -- without a separator there is one component, and its length is that of the whole
    obtain ⟨hmax, hsep⟩ := hone
    have hne : joined '/' cs ≠ [] := by
      intro he
      rw [he] at hmax
      exact absurd hmax (by decide)
    have hc : Component '/' (joined '/' cs) := ⟨hne, hsep⟩
    rw [normalise_of_not_fits]
    · rfl
    · intro hfit
      rw [segments_component hc] at hfit hseg
      have hord : Ordinary here up (joined '/' cs) := (hcs _ (by rw [← hseg]; simp)).2
      have := hfit [] _ (by simp) hord
      simp only [reduce_nil, joined_nil, List.length_nil, List.length_cons] at this hmax
      omega
  · have hfit : FitsThroughout (okmMaxPath - 1) cs := by
      refine fitsThroughout_of_head hcs (by omega) fun c hhead => ?_
      obtain ⟨ds, rfl⟩ : ∃ ds, cs = c :: ds := by
        cases cs with
        | nil => simp at hhead
        | cons d ds => exact ⟨ds, by simpa using hhead⟩
      by_cases hds : ds = []
      · subst hds
        have hsep : '/' ∉ c := (hcs c (by simp)).1.2
        simp only [joined_singleton, hsep, not_false_eq_true, and_true, List.length_cons]
          at hone hjlen
        omega
      · -- a second component and the separator before it leave the room that is asked for
        have hne : joined '/' ds ≠ [] := by
          intro he
          refine hds ((joined_eq_nil_iff fun d hd => ?_).mp he)
          exact (hcs d (by simp [hd])).1
        have := List.length_pos_iff.mpr hne
        rw [joined_cons hds, List.length_append, List.length_cons] at hjlen
        omega
    rw [normalise_of_fits (by rw [hseg]; exact hfit), lexicalReduction, reducedStack, hseg,
      reduce_eq_self fun c hc => (hcs c hc).2]
    rfl

/-! ## The null device -/

/-- The filter of `okm_null_name` on the last component. -/
def lastName (path : Text) : Text :=
  ((path.reverse.dropWhile fun c => c = '/' || c = '\\').takeWhile
    fun c => !(c = '/' || c = '\\')).reverse

/-- What the filter looks at is the last component, unless a backslash is spelled within that. -/
theorem lastName_eq {p c : Text} (k : ℕ) (hp : p = [] ∨ p.getLast? = some '/')
    (hc : Component '/' c) (hback : '\\' ∉ c) :
    lastName (p ++ c ++ List.replicate k '/') = c := by
  have hsep : ∀ a ∈ c.reverse, (!(decide (a = '/') || decide (a = '\\'))) = true := by
    intro a ha
    rw [List.mem_reverse] at ha
    have h₁ : a ≠ '/' := fun he => hc.2 (he ▸ ha)
    have h₂ : a ≠ '\\' := fun he => hback (he ▸ ha)
    simp [h₁, h₂]
  have hrep : (List.replicate k '/').dropWhile (fun c => c = '/' || c = '\\') = [] := by
    rw [List.dropWhile_eq_nil_iff]
    intro a ha
    simp [List.eq_of_mem_replicate ha]
  obtain ⟨a, t, ht⟩ := List.exists_cons_of_ne_nil (List.reverse_ne_nil_iff.mpr hc.1)
  have ha := hsep a (by simp [ht])
  rw [Bool.not_eq_true'] at ha
  -- read from the end: the separators that trail, the component, and the separator before it
  have hdrop : (p ++ c ++ List.replicate k '/').reverse.dropWhile
      (fun c => c = '/' || c = '\\') = c.reverse ++ p.reverse := by
    rw [List.reverse_append, List.reverse_append, List.reverse_replicate, List.dropWhile_append,
      hrep, List.isEmpty_nil, if_pos rfl, ht, List.cons_append]
    exact List.dropWhile_cons_of_neg (by simp [ha])
  have htake : p.reverse.takeWhile (fun c => !(decide (c = '/') || decide (c = '\\'))) = [] := by
    rcases hp with rfl | hp
    · rfl
    · obtain ⟨p, rfl⟩ := List.getLast?_eq_some_iff.mp hp
      simp
  rw [lastName, hdrop, List.takeWhile_append_of_pos hsep, htake, List.append_nil,
    List.reverse_reverse]

/-- A form that is the null device's name has the separator for its root and ends in `null`. -/
theorem formParts_of_nullDevice {base rel : Text} (h : lexicalForm base rel = nullDevice) :
    formRoot base rel = ['/'] ∧
      reduce here up (formParts base rel) = [['d', 'e', 'v'], ['n', 'u', 'l', 'l']] := by
  have hstack : Stack '/' here up (reduce here up (formParts base rel)) :=
    stack_reduce (formParts_component base rel)
  have hroot : formRoot base rel = ['/'] := by
    -- no root leaves a separator at the start of a joined stack, and a volume has a colon
    have hname : ∀ name : Text, formRoot base rel = name.take (rootLength name) →
        formRoot base rel = ['/'] := by
      intro name hname
      rcases rootLength_cases name with h₀ | ⟨h₁, ht⟩ | ⟨h₃, hcolon, -⟩
      · exfalso
        rw [lexicalForm, hname, h₀] at h
        refine head?_joined_ne hstack.component ?_
        rw [show joined '/' (reduce here up (formParts base rel)) = nullDevice from h]
        rfl
      · rw [hname, h₁, ht]
      · exfalso
        have h₁ := congrArg (·[1]?) h
        rw [lexicalForm, hname, h₃] at h₁
        have hlt : 1 < ((name.take 3).map slashed).length := by
          rw [List.length_map]
          have := length_take_rootLength name
          rw [h₃] at this
          omega
        simp only [List.getElem?_append_left hlt, List.getElem?_map, List.getElem?_take] at h₁
        rw [if_pos (by omega), hcolon] at h₁
        revert h₁
        decide
    by_cases hrel : rootLength rel = 0
    · exact hname base (by simp [formRoot, hrel])
    · exact hname rel (by simp [formRoot, hrel])
  refine ⟨hroot, ?_⟩
  rw [lexicalForm, hroot] at h
  have hj : joined '/' (reduce here up (formParts base rel)) =
      ['d', 'e', 'v', '/', 'n', 'u', 'l', 'l'] := by simpa [slashed, nullDevice] using h
  have hseg := segments_joined hstack.component
  rw [hj] at hseg
  rw [← hseg]
  decide

/-- What is joined is no longer than the buffer, behind the root it has itself. -/
theorem length_lt_of_join {base rel out : Text} {cap : ℕ} (h : join base rel cap = .ok out) :
    rel.length + 1 < okmMaxPath + rootLength rel := by
  by_cases hbuf : (joinBuffer (if rootLength rel ≠ 0 then []
      else base.drop (if rootLength rel ≠ 0 then 0 else rootLength base))
      (rel.drop (rootLength rel))).length + 1 ≥ okmMaxPath
  · simp only [join] at h
    rw [if_pos hbuf] at h
    cases h
  · obtain ⟨b, -, -, he⟩ := joinBuffer_of_length_lt (not_le.mp hbuf)
    rw [he, List.length_append, List.length_drop] at hbuf
    omega

/-- A name of the null device is not too long to be looked at, and passes the filter. -/
theorem lastName_of_nullDevice {base rel : Text} {cap : ℕ}
    (h : join base rel cap = .ok nullDevice) :
    rel.length < okmMaxPath ∧ (lastName rel = [] ∨ lastName rel = ['n', 'u', 'l', 'l'] ∨
      lastName rel = here ∨ lastName rel = up) := by
  have hform : lexicalForm base rel = nullDevice := by
    rcases join_cases base rel cap with he | ⟨he, -⟩ <;> rw [h] at he
    · cases he
    · exact (Except.ok.inj he).symm
  obtain ⟨hroot, hred⟩ := formParts_of_nullDevice hform
  have hlen := length_lt_of_join h
  -- the path has no volume of its own, so its components are those a separator cuts out
  have hrel : rootLength rel = 0 ∨ rootLength rel = 1 ∧ rel.take 1 = ['/'] := by
    rcases rootLength_cases rel with h₀ | h₁ | ⟨h₃, -, -⟩
    · exact Or.inl h₀
    · exact Or.inr h₁
    · exfalso
      have := length_take_rootLength rel
      simp only [formRoot, h₃, ne_eq, OfNat.ofNat_ne_zero, not_false_eq_true, if_true] at hroot this
      rw [hroot] at this
      simp at this
  have hparts : ∃ pre, formParts base rel = pre ++ segments '/' rel := by
    have hs : ∀ t, spelled ['/'] t = t := fun t => by simp [spelled]
    rcases hrel with h₀ | ⟨h₁, ht⟩
    · exact ⟨segments '/' (base.drop (rootLength base)), by simp [formParts, hroot, hs, h₀]⟩
    · refine ⟨[], ?_⟩
      have hcons : rel = '/' :: rel.drop 1 := by
        conv_lhs => rw [← List.take_append_drop 1 rel, ht]
        rfl
      rw [hcons, segments_cons_sep, ← hcons]
      simp [formParts, hroot, hs, h₁]
  refine ⟨by omega, ?_⟩
  obtain ⟨pre, hpre⟩ := hparts
  rcases @segments_last _ _ '/' rel with ⟨-, hall⟩ | ⟨p, c, k, hl, hp, hc, hseg⟩
  · -- nothing but separators
    left
    rw [lastName, hall, List.reverse_replicate]
    have : (List.replicate rel.length '/').dropWhile (fun c => c = '/' || c = '\\') = [] := by
      rw [List.dropWhile_eq_nil_iff]
      intro a ha
      simp [List.eq_of_mem_replicate ha]
    rw [this]
    rfl
  · right
    rw [hpre, hseg, ← List.append_assoc, reduce_concat, reduceStep] at hred
    have hback : ∀ s : Text, c = s → '\\' ∉ s → lastName rel = s := by
      rintro s rfl hs
      rw [hl]
      exact lastName_eq k hp hc hs
    split_ifs at hred with h₁ h₂
    · exact Or.inr (Or.inl (hback here h₁ (by decide)))
    · exact Or.inr (Or.inr (hback up h₂ (by decide)))
    · -- an ordinary last component survives, and is then the device's
      left
      refine hback _ ?_ (by decide)
      have := congrArg List.getLast? hred
      simpa using this

namespace PortState

theorem exists_join_of_okmAbsolute {w : PortState} {dirfd : Int} {path abs : Text} {cap : ℕ}
    (h : w.okmAbsolute dirfd (some path) cap = .ok abs) :
    ∃ base, join base path cap = .ok abs := by
  simp only [okmAbsolute] at h
  split_ifs at h
  · exact ⟨_, h⟩
  · exact ⟨_, h⟩
  · cases hd : w.okmDescOf dirfd with
    | none => simp [hd] at h
    | some d =>
      simp only [hd] at h
      split_ifs at h
      cases hn : w.dirName (w.desc d) with
      | none => simp [hn] at h
      | some name => exact ⟨name, by simpa [hn] using h⟩

theorem nullNameResolved_iff {w : PortState} {dirfd : Int} {path : Text} :
    w.nullNameResolved dirfd (some path) = true ↔
      path ≠ [] ∧ w.okmAbsolute dirfd (some path) okmMaxPath = .ok nullDevice := by
  simp only [nullNameResolved, Option.getD_some]
  cases w.okmAbsolute dirfd (some path) okmMaxPath with
  | error e => simp
  | ok abs => simp

/-- The filter lets every name of the null device through. -/
theorem okmNullName_iff {w : PortState} {dirfd : Int} {path : Text} :
    w.okmNullName dirfd (some path) = true ↔
      path ≠ [] ∧ w.okmAbsolute dirfd (some path) okmMaxPath = .ok nullDevice := by
  rw [← nullNameResolved_iff]
  have hfilter : w.okmNullName dirfd (some path) =
      if path = [] ∨ okmMaxPath ≤ path.length then false
      else if lastName path ≠ [] ∧ lastName path ≠ ['n', 'u', 'l', 'l'] ∧ lastName path ≠ here ∧
        lastName path ≠ up then false
      else w.nullNameResolved dirfd (some path) := rfl
  rw [hfilter]
  constructor
  · intro h
    split_ifs at h
    exact h
  · intro h
    obtain ⟨hne, habs⟩ := nullNameResolved_iff.mp h
    obtain ⟨base, hjoin⟩ := exists_join_of_okmAbsolute habs
    obtain ⟨hlen, hlast⟩ := lastName_of_nullDevice hjoin
    rw [if_neg (by simpa [hne] using hlen), if_neg (by tauto)]
    exact h

/-- **The null device's quick test is exact.** For every state, directory and path, testing the
last component first answers what resolving the whole name answers. -/
theorem okmNullName_eq (w : PortState) (dirfd : Int) (path : Option Text) :
    w.okmNullName dirfd path = w.nullNameResolved dirfd path := by
  cases path with
  | none => rfl
  | some path => rw [Bool.eq_iff_iff, okmNullName_iff, nullNameResolved_iff]

end PortState

/-! ## When a path taken as it stands is the path the others speak of -/

/-- The length measured on the way is the length of the name. -/
theorem matchPreopen_length (w : PortState) {path : Text} :
    w.matchPreopen path path.length = w.matchPreopen path 0 := by
  unfold matchPreopen
  cases bestPreopen path w.pre none with
  | none => rfl
  | some p =>
    simp only
    have hle := (List.dropWhile_suffix (l := path.drop p.name.length)
      fun c => c = '/' || (c = '\\' && isVolume p.name)).length_le
    rw [List.length_drop] at hle
    generalize (path.drop p.name.length).dropWhile
      (fun c => c = '/' || (c = '\\' && isVolume p.name)) = rest at hle ⊢
    have hlen : (if path.length ≠ 0 then path.length - (path.length - rest.length)
        else rest.length) = rest.length := by
      split_ifs <;> omega
    simp only [hlen, ne_eq, not_true_eq_false, if_false]

/-- A component that takes all the characters a name may have is resolved as it stands behind the
root, and has no absolute form. -/
theorem longest_component {c : Text} (hc : '/' ∉ c) (hmax : c.length + 2 = okmMaxPath) :
    alreadyNormal ('/' :: c) = okmMaxPath - 1 ∧
      join [] ('/' :: c) okmMaxPath = .error .enametoolong := by
  -- a component this long is neither `.` nor `..`
  have hcs : Stack '/' here up [c] := by
    intro d hd
    obtain rfl := List.mem_singleton.mp hd
    refine ⟨⟨?_, hc⟩, ?_, ?_⟩ <;> rintro rfl <;> exact absurd hmax (by decide)
  have hlen : ('/' :: c).length = okmMaxPath - 1 := by
    rw [List.length_cons]
    omega
  have hloop : alreadyNormalLoop ('/' :: c).length c = true :=
    (alreadyNormalLoop_iff _ c (by simp)).mpr ⟨[c], hcs, by simp⟩
  constructor
  · simp only [alreadyNormal, List.getElem?_cons_zero, ne_eq, not_true_eq_false, if_false,
      List.drop_succ_cons, List.drop_zero, hloop, if_true]
    rw [hlen, if_pos (by decide)]
  · rw [join_nil_of_stack hcs (by simp) (by rw [hlen]; decide)]
    exact if_pos ⟨hlen, by simpa using hc⟩

/-- **When the resolver's shortcut agrees with its slow path**: for every path but one of a single
component that takes all the characters a name may have. -/
theorem shortcutAgrees_iff (path : Text) :
    ShortcutAgrees path ↔
      ¬ (path.length = okmMaxPath - 1 ∧ ∃ c, '/' ∉ c ∧ path = '/' :: c) := by
  constructor
  · rintro hagree ⟨hmax, c, hc, rfl⟩
    rw [List.length_cons] at hmax
    have hbound : 2 ≤ okmMaxPath := by decide
    obtain ⟨hnormal, herr⟩ := longest_component hc (by omega)
    have hjoin := (hagree (by rw [hnormal]; decide)).1
    rw [herr] at hjoin
    cases hjoin
  · intro hone hnormal
    obtain ⟨hn, hlt, cs, hcs, hpath⟩ := alreadyNormal_pos hnormal
    have hroot : rootLength path ≠ 0 := by simp [rootLength, hpath]
    have hne : path ≠ [] := by simp [hpath]
    have hjoin : join [] path okmMaxPath = .ok path := by
      rw [join_nil_of_stack hcs hpath hlt, if_neg fun h => hone ⟨h.1, _, h.2, hpath⟩]
    have habs : ∀ (w : PortState) (dirfd : Int),
        w.okmAbsolute dirfd (some path) okmMaxPath = .ok path := by
      intro w dirfd
      simp only [okmAbsolute, if_pos hroot, hjoin]
    refine ⟨hjoin, fun w dirfd => ⟨habs w dirfd, fun emptyOk => ?_, ?_, ?_⟩⟩
    · simp only [okmResolve, hne, false_and, if_false, if_pos hnormal, habs]
      rw [hn, matchPreopen_length]
      rfl
    · rw [okmNullName_iff, habs]
      simp [hne]
    · intro env at_ target hres hopen
      simp only [okmChdir, hres, hopen, if_pos hroot, hjoin]

/-- A component of 4094 characters behind the root is resolved, and has no absolute form. -/
theorem shortcut_disagrees :
    alreadyNormal ('/' :: List.replicate 4094 'a') = 4095 ∧
      join [] ('/' :: List.replicate 4094 'a') okmMaxPath = .error .enametoolong ∧
      ¬ ShortcutAgrees ('/' :: List.replicate 4094 'a') := by
  have hc : '/' ∉ List.replicate 4094 'a' := fun h =>
    absurd (List.eq_of_mem_replicate h) (by decide)
  obtain ⟨hnormal, herr⟩ := longest_component hc (by rw [List.length_replicate]; rfl)
  refine ⟨hnormal, herr, fun hagree => ?_⟩
  have hjoin := (hagree (by rw [hnormal]; decide)).1
  rw [herr] at hjoin
  cases hjoin

end OpenkalMusl
