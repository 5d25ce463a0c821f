import OpenkalMusl.Names.Normalise

/-!
# Absolute names

Where an absolute name begins, how one is built from a base and a remainder, and when one is
already in the form `normalise` produces (`root_length`, `same_char`, `is_prefix_at_boundary`,
`join`, `already_normal` and `copy_str` of `okm_fd.c`). A read at the terminating zero of a
string is a read past the end of its list.

A name begins with a separator or with a volume; the root survives normalisation. Beneath a
volume a backslash separates too.

## Main definitions

* `rootLength`, `join`, `alreadyNormal`, `isPrefixAtBoundary`, `copyStr`: the source's functions
* `lexicalForm base rel`: the lexical normal form of `rel` joined to `base`

## Main results

* `join_cases`: `join` returns the lexical form, or refuses it as too long
* `exists_lexicalForm`: a lexical form is a root and a joined stack
* `alreadyNormal_pos`: a name taken as it stands is a separator and a joined stack
* `isPrefixAtBoundary_iff`: beneath no volume, a match is a cut at a component boundary
-/

namespace OpenkalMusl

open Lexical

/-! ## The functions -/

def isLetter (c : Char) : Bool := ('A' ≤ c && c ≤ 'Z') || ('a' ≤ c && c ≤ 'z')

/-- The part of an absolute name that is not a component; zero for a relative name. -/
def rootLength (name : Text) : ℕ :=
  if name[0]? = some '/' then 1
  else if name[1]? = some ':' ∧ (name[2]? = some '/' ∨ name[2]? = some '\\') ∧
      (name[0]?.any isLetter) then 3
  else 0

/-- Whether a name is spelled beneath a volume. -/
def isVolume (name : Text) : Bool := 2 ≤ name.length && name[1]? == some ':'

def lowerChar (c : Char) : Char :=
  if 'A' ≤ c && c ≤ 'Z' then Char.ofNat (c.toNat - 'A'.toNat + 'a'.toNat) else c

/-- Beneath a volume names are compared without regard to case and with either separator. -/
def sameChar (a b : Char) (volume : Bool) : Bool :=
  if a = b then true
  else if !volume then false
  else if (a = '/' || a = '\\') && (b = '/' || b = '\\') then true
  else lowerChar a = lowerChar b

/-- The comparison loop of `is_prefix_at_boundary`. -/
def samePrefix (volume : Bool) : Text → Text → Bool
  | [], _ => true
  | _ :: _, [] => false
  | b :: name, a :: abs => sameChar a b volume && samePrefix volume name abs

/-- Whether a supplied directory's name is a whole-component start of `abs`. -/
def isPrefixAtBoundary (name abs : Text) : Bool :=
  if name.length = 0 then false
  else if !samePrefix (isVolume name) name abs then false
  -- a name that itself ends in a separator, a root, matches without requiring another
  else if name.getLast? = some '/' || (isVolume name && name.getLast? = some '\\') then true
  else abs.length = name.length || abs[name.length]? = some '/' ||
    (isVolume name && abs[name.length]? = some '\\')

/-- Copies at most `n` characters into a buffer of `cap` bytes; the count is returned. -/
def copyStr (src : Text) (n cap : ℕ) : Text × ℕ :=
  let n := if n ≥ cap then (if cap = 0 then 0 else cap - 1) else n
  (src.take n, n)

def slashed (c : Char) : Char := if c = '\\' then '/' else c

/-- The buffer `tmp` of `join`: the base, a separator where it lacks one, and the remainder,
each copied only while there is room. -/
def joinBuffer (base rest : Text) : Text :=
  let tmp := base.take (okmMaxPath - 1)
  let tmp :=
    if tmp ≠ [] ∧ tmp.getLast? ≠ some '/' then
      if tmp.length + 1 < okmMaxPath then tmp ++ ['/'] else tmp
    else tmp
  tmp ++ rest.take (okmMaxPath - 1 - tmp.length)

/-- An absolute name from a base and a remainder, keeping whatever root the one that has a
root had. -/
def join (base rel : Text) (cap : ℕ) : Except Errno Text :=
  let rroot := rootLength rel
  let proot := if rroot ≠ 0 then 0 else rootLength base
  let tmp := joinBuffer (if rroot ≠ 0 then [] else base.drop proot) (rel.drop rroot)
  if tmp.length + 1 ≥ okmMaxPath then .error .enametoolong
  else
    let keep := if rroot ≠ 0 then rroot else proot
    let from_ := if rroot ≠ 0 then rel else base
    let tmp := if keep = 3 ∧ from_[1]? = some ':' then tmp.map slashed else tmp
    if keep + 1 ≥ cap then .error .enametoolong
    else (normalise tmp (cap - keep)).map ((from_.take keep).map slashed ++ ·)

/-- The loop of `already_normal`; a turn reads at least one character of `p`. -/
def alreadyNormalLoop : ℕ → Text → Bool
  | 0, p => p = []
  | fuel + 1, p =>
    if p = [] then true
    else
      let s := p.takeWhile (· ≠ '/')
      let p := p.dropWhile (· ≠ '/')
      if s.length = 0 then false
      else if s[0]? = some '.' ∧ (s.length = 1 ∨ s.length = 2 ∧ s[1]? = some '.') then false
      else if p = [] then true
      else if p.drop 1 = [] then false
      else alreadyNormalLoop fuel (p.drop 1)

/-- The length of an absolute name already in the form `normalise` produces, and zero for any
other. -/
def alreadyNormal (path : Text) : ℕ :=
  if path[0]? ≠ some '/' then 0
  else if alreadyNormalLoop path.length (path.drop 1) then
    if path.length < okmMaxPath then path.length else 0
  else 0

/-! ## The lexical normal form -/

/-- Beneath a volume a backslash separates. -/
def spelled (root text : Text) : Text := if root.length = 3 then text.map slashed else text

/-- The root of `rel` joined to `base`: its own, or else the base's. -/
def formRoot (base rel : Text) : Text :=
  if rootLength rel ≠ 0 then rel.take (rootLength rel) else base.take (rootLength base)

/-- The components of `rel` joined to `base`: its own alone when it has a root. -/
def formParts (base rel : Text) : List Text :=
  let part (text : Text) := segments '/' (spelled (formRoot base rel) text)
  if rootLength rel ≠ 0 then part (rel.drop (rootLength rel))
  else part (base.drop (rootLength base)) ++ part rel

/-- **The lexical normal form** of `rel` joined to `base`: the root, and the components reduced
over a stack. -/
def lexicalForm (base rel : Text) : Text :=
  (formRoot base rel).map slashed ++ joined '/' (reduce here up (formParts base rel))

/-! ## Roots -/

theorem rootLength_cases (name : Text) :
    rootLength name = 0 ∨ (rootLength name = 1 ∧ name.take 1 = ['/']) ∨
      (rootLength name = 3 ∧ name[1]? = some ':' ∧ (name.take 3).length = 3) := by
  unfold rootLength
  split_ifs with h₁ h₂
  · right; left
    cases name with
    | nil => simp at h₁
    | cons a name => simpa using h₁
  · right; right
    refine ⟨rfl, h₂.1, ?_⟩
    have : 2 < name.length := by
      rcases h₂.2.1 with h | h <;> exact (List.getElem?_eq_some_iff.mp h).1
    simp
    omega
  · exact Or.inl rfl

theorem isLetter_of_rootLength {name : Text} (h : rootLength name = 3) :
    name[0]?.any isLetter = true := by
  unfold rootLength at h
  split_ifs at h with h₁ hv
  · exact absurd h (by decide)
  · exact hv.2.2

theorem length_take_rootLength (name : Text) :
    (name.take (rootLength name)).length = rootLength name := by
  rcases rootLength_cases name with h | ⟨h, ht⟩ | ⟨h, -, ht⟩
  · simp [h]
  · rw [h, ht]
    rfl
  · rw [h, ht]

theorem rootLength_eq_zero_of_head {name : Text} (h : rootLength name = 0) :
    name[0]? ≠ some '/' := by
  intro hn
  simp [rootLength, hn] at h

/-! ## Joining -/

theorem joinBuffer_of_length_lt {base rest : Text}
    (h : (joinBuffer base rest).length + 1 < okmMaxPath) :
    ∃ b, (b = [] ∨ b.getLast? = some '/') ∧ (b = base ∨ b = base ++ ['/']) ∧
      joinBuffer base rest = b ++ rest := by
  -- the base is not cut off either: it would fill the buffer by itself
  have hbase : base.length ≤ okmMaxPath - 1 := by
    by_contra hlt
    have hl : (base.take (okmMaxPath - 1)).length = okmMaxPath - 1 := by
      rw [List.length_take]
      omega
    unfold joinBuffer at h
    simp only [List.length_append] at h
    split_ifs at h <;> simp only [List.length_append, hl] at h <;> omega
  unfold joinBuffer at h ⊢
  rw [List.take_of_length_le hbase] at h ⊢
  simp only at h ⊢
  -- nothing of the remainder is cut off when the whole is short enough
  have hrest : ∀ b : Text, (b ++ rest.take (okmMaxPath - 1 - b.length)).length + 1 < okmMaxPath →
      b ++ rest.take (okmMaxPath - 1 - b.length) = b ++ rest := by
    intro b hb
    rw [List.length_append, List.length_take] at hb
    rw [List.take_of_length_le (by omega)]
  split_ifs at h ⊢ with h₁ h₂
  · exact ⟨base ++ ['/'], Or.inr (by simp), Or.inr rfl, hrest _ h⟩
  · rw [List.length_append] at h
    omega
  · refine ⟨base, ?_, Or.inl rfl, hrest _ h⟩
    by_contra hb
    rw [not_or] at hb
    exact h₁ hb

theorem segments_joinBuffer {base rest : Text} {f : Text → Text}
    (hf : f = id ∨ f = List.map slashed)
    (h : (joinBuffer base rest).length + 1 < okmMaxPath) :
    segments '/' (f (joinBuffer base rest)) = segments '/' (f base) ++ segments '/' (f rest) := by
  obtain ⟨b, hb, hbase, he⟩ := joinBuffer_of_length_lt h
  have happ : ∀ s t : Text, f (s ++ t) = f s ++ f t := by
    rcases hf with rfl | rfl <;> simp
  have hsep : f ['/'] = ['/'] := by
    rcases hf with rfl | rfl <;> rfl
  -- rewriting separators keeps the boundary between the two
  have hend : f b = [] ∨ (f b).getLast? = some '/' := by
    rcases hb with rfl | hb
    · rcases hf with rfl | rfl <;> simp
    · obtain ⟨b, rfl⟩ := List.getLast?_eq_some_iff.mp hb
      rw [happ, hsep]
      simp
  rw [he, happ, segments_append _ hend]
  rcases hbase with rfl | rfl
  · rfl
  · rw [happ, hsep, segments_append_cons]
    simp

theorem spelled_cases (root : Text) : spelled root = id ∨ spelled root = List.map slashed := by
  by_cases h : root.length = 3
  · right
    funext text
    simp [spelled, h]
  · left
    funext text
    simp [spelled, h]

/-- `join` in terms of its root: the buffer is normalised behind it. -/
theorem join_eq (base rel : Text) (cap : ℕ) :
    ∃ b r, formParts base rel = segments '/' (spelled (formRoot base rel) b) ++
        segments '/' (spelled (formRoot base rel) r) ∧
      join base rel cap =
        if (joinBuffer b r).length + 1 ≥ okmMaxPath then .error .enametoolong
        else if (formRoot base rel).length + 1 ≥ cap then .error .enametoolong
        else (normalise (spelled (formRoot base rel) (joinBuffer b r))
          (cap - (formRoot base rel).length)).map ((formRoot base rel).map slashed ++ ·) := by
  -- the second test of a volume's root adds nothing to the first
  have hvolume : ∀ name : Text, (rootLength name = 3 ∧ name[1]? = some ':') ↔
      rootLength name = 3 := by
    intro name
    rcases rootLength_cases name with h | ⟨h, -⟩ | ⟨h, hc, -⟩ <;> simp [h]
    exact hc
  by_cases hr : rootLength rel = 0
  · refine ⟨base.drop (rootLength base), rel, by simp [formParts, hr], ?_⟩
    simp only [join, formRoot, spelled, hr, ne_eq, not_true_eq_false, if_false, List.drop_zero,
      hvolume, length_take_rootLength]
  · -- a rooted path: the base is not looked at
    refine ⟨[], rel.drop (rootLength rel), ?_, ?_⟩
    · rcases spelled_cases (formRoot base rel) with hs | hs <;> simp [formParts, hr, hs]
    · simp only [join, formRoot, spelled, ne_eq, hr, not_false_eq_true, if_true, hvolume,
        length_take_rootLength]

/-- **`join` returns the lexical normal form, or refuses it as too long.** -/
theorem join_cases (base rel : Text) (cap : ℕ) :
    join base rel cap = .error .enametoolong ∨
      (join base rel cap = .ok (lexicalForm base rel) ∧ (lexicalForm base rel).length < cap) := by
  obtain ⟨b, r, hparts, hjoin⟩ := join_eq base rel cap
  rw [hjoin]
  split_ifs with h₁ h₂
  · exact Or.inl rfl
  · exact Or.inl rfl
  · cases hn : normalise (spelled (formRoot base rel) (joinBuffer b r))
        (cap - (formRoot base rel).length) with
    | error e =>
      obtain ⟨-, rfl⟩ := normalise_eq_error_iff.mp hn
      exact Or.inl rfl
    | ok out =>
      right
      have hlt := length_lt_of_normalise (by omega) hn
      obtain ⟨-, rfl⟩ := normalise_eq_ok_iff.mp hn
      have hform : lexicalForm base rel = (formRoot base rel).map slashed ++
          lexicalReduction (spelled (formRoot base rel) (joinBuffer b r)) := by
        rw [lexicalForm, lexicalReduction, reducedStack,
          segments_joinBuffer (spelled_cases _) (by omega), hparts]
      refine ⟨by rw [hform]; rfl, ?_⟩
      rw [hform, List.length_append, List.length_map]
      omega

theorem formParts_component (base rel : Text) : ∀ c ∈ formParts base rel, Component '/' c := by
  intro c hc
  unfold formParts at hc
  simp only at hc
  split_ifs at hc
  · exact component_of_mem_segments hc
  · rcases List.mem_append.mp hc with hc | hc <;> exact component_of_mem_segments hc

/-- A lexical form is a root and a joined stack. -/
theorem exists_lexicalForm (base rel : Text) :
    ∃ root cs, Stack '/' here up cs ∧ lexicalForm base rel = root ++ joined '/' cs ∧
      (root = [] ∨ root = ['/'] ∨ root[0]? ≠ some '/' ∧ root[1]? = some ':') := by
  refine ⟨_, _, stack_reduce (formParts_component base rel), rfl, ?_⟩
  have hroot : ∀ name : Text, (name.take (rootLength name)).map slashed = [] ∨
      (name.take (rootLength name)).map slashed = ['/'] ∨
      ((name.take (rootLength name)).map slashed)[0]? ≠ some '/' ∧
        ((name.take (rootLength name)).map slashed)[1]? = some ':' := by
    intro name
    rcases rootLength_cases name with h | ⟨h, ht⟩ | ⟨h, hc, -⟩
    · simp [h]
    · right; left
      rw [h, ht]
      rfl
    · right; right
      rw [h, List.getElem?_map, List.getElem?_map, List.getElem?_take, List.getElem?_take,
        if_pos (by omega), if_pos (by omega), hc]
      refine ⟨?_, rfl⟩
      -- the first character of a volume is a letter
      have hl := isLetter_of_rootLength h
      intro hs
      obtain ⟨c, hc0, hcs⟩ := Option.map_eq_some_iff.mp hs
      rw [hc0, Option.any_some] at hl
      unfold slashed at hcs
      split_ifs at hcs with hb
      · subst hb
        revert hl
        decide
      · subst hcs
        revert hl
        decide
  unfold formRoot
  split_ifs <;> exact hroot _

/-! ## Names taken as they stand -/

theorem special_iff (s : Text) :
    (s[0]? = some '.' ∧ (s.length = 1 ∨ s.length = 2 ∧ s[1]? = some '.')) ↔
      ¬ Ordinary here up s := by
  have hor : ¬ Ordinary here up s ↔ s = here ∨ s = up := by
    rw [Ordinary, not_and_or, not_not, not_not]
  rw [hor, here, up]
  match s with
  | [] => simp
  | [a] => simp
  | [a, b] => simp
  | a :: b :: c :: s => simp

/-- What the loop of `already_normal` accepts is a joined stack. -/
theorem alreadyNormalLoop_iff (fuel : ℕ) (p : Text) (hfuel : p.length ≤ fuel) :
    alreadyNormalLoop fuel p = true ↔ ∃ cs, Stack '/' here up cs ∧ p = joined '/' cs := by
  -- One turn of the loop reads one component and the separator behind it.
  induction fuel generalizing p with
  | zero =>
    obtain rfl : p = [] := List.eq_nil_of_length_eq_zero (by omega)
    simpa [alreadyNormalLoop] using ⟨[], by simp [Stack], rfl⟩
  | succ fuel ih =>
    rcases eq_or_ne p [] with rfl | hp
    · simpa [alreadyNormalLoop] using ⟨[], by simp [Stack], rfl⟩
    simp only [alreadyNormalLoop, if_neg hp, special_iff]
    have happ := List.takeWhile_append_dropWhile (p := (· ≠ '/')) (l := p)
    have hmem : '/' ∉ p.takeWhile (· ≠ '/') := fun h => by simpa using List.mem_takeWhile_imp h
    constructor
    · intro h
      split_ifs at h with h₁ h₂ h₃ h₄
      · -- one component is left
        rw [h₃, List.append_nil] at happ
        rw [happ] at h₁ h₂ hmem
        refine ⟨[p], fun c hc => ?_, by simp⟩
        rw [List.mem_singleton.mp hc]
        exact ⟨⟨hp, hmem⟩, h₂⟩
      · -- a component, a separator and more
        obtain ⟨a, q, hq⟩ := List.exists_cons_of_ne_nil h₃
        have ha : a = '/' := by
          have := List.head?_dropWhile_not (fun x => decide (x ≠ '/')) p
          rw [hq] at this
          simpa using this
        subst ha
        rw [hq] at h h₄ happ
        have hlen : q.length ≤ fuel := by
          have := congrArg List.length happ
          simp only [List.length_append, List.length_cons] at this
          omega
        obtain ⟨cs, hcs, hqcs⟩ := (ih q hlen).mp h
        have hne : cs ≠ [] := by
          rintro rfl
          exact h₄ hqcs
        refine ⟨p.takeWhile (· ≠ '/') :: cs, ?_, ?_⟩
        · intro c hc
          rcases List.mem_cons.mp hc with rfl | hc
          · exact ⟨⟨fun he => h₁ (congrArg List.length he), hmem⟩, h₂⟩
          · exact hcs c hc
        · rw [joined_cons hne, ← hqcs, happ]
    · rintro ⟨cs, hcs, rfl⟩
      cases cs with
      | nil => exact absurd rfl hp
      | cons c cs =>
        obtain ⟨hc, hord⟩ := hcs c (by simp)
        have hcs' : Stack '/' here up cs := fun d hd => hcs d (by simp [hd])
        -- what the loop reads first is the bottom of the stack
        obtain ⟨htake, hdrop⟩ := span_joined cs hc
        rw [htake, hdrop, if_neg (by simpa using hc.1), if_neg (not_not.mpr hord)]
        by_cases hne : cs = []
        · simp [hne]
        · have hj : joined '/' cs ≠ [] := by simpa [joined_eq_nil_iff hcs'.component] using hne
          rw [if_neg hne, if_neg (by simp), if_neg (by simpa using hj)]
          refine (ih _ ?_).mpr ⟨cs, hcs', by simp⟩
          rw [joined_cons hne] at hfuel
          simp only [List.length_append, List.length_cons, List.drop_succ_cons,
            List.drop_zero] at hfuel ⊢
          omega

/-- A name taken as it stands is a separator and a joined stack, and its length is known. -/
theorem alreadyNormal_pos {path : Text} (h : alreadyNormal path ≠ 0) :
    alreadyNormal path = path.length ∧ path.length < okmMaxPath ∧
      ∃ cs, Stack '/' here up cs ∧ path = '/' :: joined '/' cs := by
  unfold alreadyNormal at h ⊢
  split_ifs at h ⊢ with h₁ h₂ h₃
  · exact absurd rfl h
  · -- the one branch that answers a length
    refine ⟨rfl, h₃, ?_⟩
    cases path with
    | nil => simp at h₁
    | cons a path =>
      obtain rfl : a = '/' := by simpa using h₁
      obtain ⟨cs, hcs, he⟩ := (alreadyNormalLoop_iff _ path (by simp)).mp h₂
      exact ⟨cs, hcs, by rw [he]⟩
  · exact absurd rfl h
  · exact absurd rfl h

/-- A name taken as it stands is its own lexical form. -/
theorem lexicalForm_eq_self {path : Text} (base : Text) {cs : List Text}
    (hcs : Stack '/' here up cs) (hpath : path = '/' :: joined '/' cs) :
    lexicalForm base path = path := by
  subst hpath
  have hroot : rootLength ('/' :: joined '/' cs) = 1 := by simp [rootLength]
  have hform : formRoot base ('/' :: joined '/' cs) = ['/'] := by simp [formRoot, hroot]
  have hparts : formParts base ('/' :: joined '/' cs) = cs := by
    have hs : ∀ t, spelled ['/'] t = t := fun t => by simp [spelled]
    simpa [formParts, hform, hs, hroot] using segments_joined hcs.component
  rw [lexicalForm, hform, hparts, reduce_eq_self fun c hc => (hcs c hc).2]
  rfl

/-! ## Matching a supplied directory's name -/

theorem samePrefix_false_iff (name abs : Text) :
    samePrefix false name abs = true ↔ ∃ q, abs = name ++ q := by
  induction name generalizing abs with
  | nil => simp [samePrefix]
  | cons b name ih =>
    cases abs with
    | nil => simp [samePrefix]
    | cons a abs =>
      simp only [samePrefix, sameChar, Bool.and_eq_true, ih, List.cons_append, List.cons.injEq]
      constructor
      · rintro ⟨hab, q, hq⟩
        exact ⟨q, by simpa using hab, hq⟩
      · rintro ⟨q, rfl, hq⟩
        exact ⟨by simp, q, hq⟩

/-- Beneath no volume, a match is a cut of the name at a component boundary. -/
theorem isPrefixAtBoundary_iff {name abs : Text} (hv : isVolume name = false) :
    isPrefixAtBoundary name abs = true ↔
      name ≠ [] ∧ ∃ q, abs = name ++ q ∧ Boundary '/' name q := by
  unfold isPrefixAtBoundary
  simp only [hv, Bool.false_and, Bool.or_false]
  rcases eq_or_ne name [] with rfl | hne
  · simp
  rw [if_neg (by simpa using hne)]
  by_cases hp : ∃ q, abs = name ++ q
  · rw [(samePrefix_false_iff name abs).mpr hp, if_neg (by simp)]
    obtain ⟨q, rfl⟩ := hp
    have hq : ((name ++ q)[name.length]? = some '/') ↔ q.head? = some '/' := by
      rw [List.getElem?_append_right le_rfl, Nat.sub_self, List.head?_eq_getElem?]
    have hlen : (name ++ q).length = name.length ↔ q = [] := by
      rw [List.length_append, Nat.add_eq_left, List.length_eq_zero_iff]
    have hex : (∃ q', name ++ q = name ++ q' ∧ Boundary '/' name q') ↔ Boundary '/' name q := by
      constructor
      · rintro ⟨q', he, hb⟩
        rwa [List.append_cancel_left he]
      · exact fun hb => ⟨q, rfl, hb⟩
    rw [hex, Boundary]
    -- a name that ends in a separator matches wherever it is a prefix
    split_ifs with hl
    · simpa [hne] using Or.inl (by simpa using hl)
    · have hl' : name.getLast? ≠ some '/' := by simpa using hl
      simp only [Bool.or_eq_true, decide_eq_true_eq, hlen, hq, hne, hl', ne_eq, not_false_eq_true,
        true_and, false_or]
  · rw [Bool.eq_false_iff.mpr fun h => hp ((samePrefix_false_iff name abs).mp h), if_pos (by simp)]
    constructor
    · simp
    · rintro ⟨-, q, hq, -⟩
      exact absurd ⟨q, hq⟩ hp

/-- A copy into a large enough buffer is exact. -/
theorem copyStr_of_lt {src : Text} {n cap : ℕ} (hn : n < cap) :
    copyStr src n cap = (src.take n, n) := by
  unfold copyStr
  rw [if_neg (by omega)]

end OpenkalMusl
