import OpenkalMusl.Names.Resolve

/-!
# Names beneath a volume

Where absolute names begin with a volume, a name is compared without regard to case and with
either separator: `join` rewrites the backslashes of a name beneath a volume before it normalises
it, and `is_prefix_at_boundary` compares the supplied directories' names so.

Whether a name is beneath a volume is asked in two ways. The matcher looks for the colon; `join`
asks for a root, which the bare name of a volume (`C:`) does not have. Relative to a directory of
such a name the backslashes stay, and `.` and `..` between them are not removed.

## Main definitions

* `Respelled p q`: two paths that the matcher does not tell apart
* `volumeForm base p`: the name of a path beneath a volume, cut at either separator
* `SpellingsAgree`: two spellings are resolved to the same place
* `EitherSeparates`: this holds of every two spellings in scope

## Main results

* `joinBehind_respelled`: behind a volume's root, spellings are joined to spellings
* `spellingsAgree_of_rooted`: behind a volume's root, spellings agree
* `eitherSeparates_iff`: relative to a directory named by a volume, exactly where it has a root
-/

namespace OpenkalMusl

open Lexical

/-! ## Spellings -/

/-- Two paths that differ only in their separators and in the case of their letters. -/
def Respelled (p q : Text) : Prop := List.Forall₂ (fun a b => sameChar a b true = true) p q

/-- A character as the matcher compares it. -/
def folded (c : Char) : Char := lowerChar (slashed c)

theorem toNat_lowerChar (c : Char) :
    (lowerChar c).toNat = if 'A' ≤ c ∧ c ≤ 'Z' then c.toNat + 32 else c.toNat := by
  unfold lowerChar
  by_cases h : 'A' ≤ c ∧ c ≤ 'Z'
  · have hlo : 65 ≤ c.toNat := h.1
    have hhi : c.toNat ≤ 90 := h.2
    have hA : 'A'.toNat = 65 := rfl
    have ha : 'a'.toNat = 97 := rfl
    have hvalid : (c.toNat - 65 + 97).isValidChar := Or.inl (by omega)
    rw [if_pos (by simpa using h), if_pos h, hA, ha]
    have hnat : (Char.ofNat (c.toNat - 65 + 97)).toNat = c.toNat - 65 + 97 := by
      rw [Char.ofNat, dif_pos hvalid]
      rfl
    rw [hnat]
    omega
  · rw [if_neg (by simpa using h), if_neg h]

/-- Lowering the case of letters reaches and moves nothing that is not a letter. -/
theorem lowerChar_eq_iff {c x : Char} (hx : isLetter x = false) : lowerChar c = x ↔ c = x := by
  have hletter : ¬ (65 ≤ x.toNat ∧ x.toNat ≤ 90) ∧ ¬ (97 ≤ x.toNat ∧ x.toNat ≤ 122) := by
    simp only [isLetter, Bool.or_eq_false_iff, Bool.and_eq_false_iff, decide_eq_false_iff_not] at hx
    exact ⟨fun h => hx.1.elim (fun g => g h.1) fun g => g h.2,
      fun h => hx.2.elim (fun g => g h.1) fun g => g h.2⟩
  have hl := toNat_lowerChar c
  have hiff : ('A' ≤ c ∧ c ≤ 'Z') ↔ 65 ≤ c.toNat ∧ c.toNat ≤ 90 := Iff.rfl
  rw [← Char.toNat_inj, ← Char.toNat_inj, hl]
  split_ifs with h
  · rw [hiff] at h
    omega
  · rfl

theorem isLetter_lowerChar (c : Char) : isLetter (lowerChar c) = isLetter c := by
  have hiff : ∀ c : Char, isLetter c = true ↔
      (65 ≤ c.toNat ∧ c.toNat ≤ 90) ∨ (97 ≤ c.toNat ∧ c.toNat ≤ 122) := by
    intro c
    simp only [isLetter, Bool.or_eq_true, Bool.and_eq_true, decide_eq_true_eq]
    exact Iff.rfl
  have hup : ('A' ≤ c ∧ c ≤ 'Z') ↔ 65 ≤ c.toNat ∧ c.toNat ≤ 90 := Iff.rfl
  rw [Bool.eq_iff_iff, hiff, hiff, toNat_lowerChar]
  split_ifs with h
  · rw [hup] at h
    omega
  · rfl

theorem slashed_eq_iff {c : Char} : slashed c = '/' ↔ c = '/' ∨ c = '\\' := by
  unfold slashed
  split_ifs with h <;> simp [h]

theorem folded_eq_iff {c x : Char} (hx : isLetter x = false) (h₁ : x ≠ '/') (h₂ : x ≠ '\\') :
    folded c = x ↔ c = x := by
  rw [folded, lowerChar_eq_iff hx, slashed]
  split_ifs with h
  · subst h
    exact ⟨fun h => absurd h.symm h₁, fun h => absurd h.symm h₂⟩
  · rfl

theorem folded_eq_sep_iff {c : Char} : folded c = '/' ↔ c = '/' ∨ c = '\\' := by
  rw [folded, lowerChar_eq_iff (by decide), slashed_eq_iff]

theorem isLetter_folded (c : Char) : isLetter (folded c) = isLetter c := by
  rw [folded, isLetter_lowerChar, slashed]
  split_ifs with h
  · subst h
    decide
  · rfl

theorem slashed_lowerChar (c : Char) : slashed (lowerChar c) = folded c := by
  unfold folded slashed
  simp only [lowerChar_eq_iff (c := c) (x := '\\') (by decide)]
  split_ifs
  · decide
  · rfl

/-- The matcher compares folded characters. -/
theorem sameChar_iff (a b : Char) : sameChar a b true = true ↔ folded a = folded b := by
  unfold sameChar
  split_ifs with h₁ h₂ h₃
  · simp [h₁]
  · simp at h₂
  · simp only [Bool.and_eq_true, Bool.or_eq_true, decide_eq_true_eq] at h₃
    rw [folded_eq_sep_iff.mpr h₃.1, folded_eq_sep_iff.mpr h₃.2]
    simp
  · -- of the two at most one separates, and lowering makes no separator
    simp only [decide_eq_true_eq]
    have hsep : ¬ ((a = '/' ∨ a = '\\') ∧ (b = '/' ∨ b = '\\')) := by simpa using h₃
    have hback : ∀ x y : Char, x = '\\' → ¬ (y = '/' ∨ y = '\\') →
        (lowerChar x = lowerChar y ↔ folded x = folded y) := by
      rintro x y rfl hy
      have h₁ : lowerChar '\\' ≠ lowerChar y := fun he =>
        hy (Or.inr ((lowerChar_eq_iff (by decide)).mp he.symm))
      have h₂ : folded '\\' ≠ folded y := fun he => hy (folded_eq_sep_iff.mp he.symm)
      exact iff_of_false h₁ h₂
    by_cases ha : a = '\\'
    · exact hback a b ha fun hb => hsep ⟨Or.inr ha, hb⟩
    by_cases hb : b = '\\'
    · rw [eq_comm, hback b a hb fun ha => hsep ⟨ha, Or.inr hb⟩, eq_comm]
    · simp [folded, slashed, ha, hb]

theorem respelled_iff {p q : Text} : Respelled p q ↔ p.map folded = q.map folded := by
  have : (fun a b => sameChar a b true = true) = fun a b => folded a = folded b := by
    funext a b
    exact propext (sameChar_iff a b)
  rw [Respelled, this, ← List.forall₂_eq_eq_eq, List.forall₂_map_left_iff,
    List.forall₂_map_right_iff]

/-! ## Joining beneath a root of a volume -/

/-- A change of characters that keeps separators and dots. -/
structure KeepsMarks (f : Char → Char) : Prop where
  sep : ∀ c, f c = '/' ↔ c = '/'
  dot : ∀ c, f c = '.' ↔ c = '.'

theorem keepsMarks_lowerChar : KeepsMarks lowerChar where
  sep _ := lowerChar_eq_iff (by decide)
  dot _ := lowerChar_eq_iff (by decide)

namespace KeepsMarks

variable {f : Char → Char} (hf : KeepsMarks f)

include hf

theorem map_eq_here_iff (s : Text) : s.map f = here ↔ s = here := by
  match s with
  | [] => simp [here]
  | [a] => simp [here, hf.dot]
  | a :: b :: s => simp [here]

theorem map_eq_up_iff (s : Text) : s.map f = up ↔ s = up := by
  match s with
  | [] => simp [up]
  | [a] => simp [up]
  | [a, b] => simp [up, hf.dot]
  | a :: b :: c :: s => simp [up]

theorem comp_ne_sep : (fun c => decide (c ≠ '/')) ∘ f = fun c => decide (c ≠ '/') := by
  funext c
  simp [hf.sep]

theorem comp_eq_sep : (fun c => decide (c = '/')) ∘ f = fun c => decide (c = '/') := by
  funext c
  simp [hf.sep]

theorem dropComponent_map (out : Text) : dropComponent (out.map f) = (dropComponent out).map f := by
  unfold dropComponent List.rdropWhile
  rw [← List.map_reverse, List.dropWhile_map, hf.comp_ne_sep, ← List.map_reverse, List.map_dropLast]

theorem addComponent_map (out s : Text) :
    addComponent (out.map f) (s.map f) = (addComponent out s).map f := by
  have hsep : f '/' = '/' := (hf.sep '/').mpr rfl
  by_cases h : out = [] <;> simp [addComponent, h, hsep]

/-- The scan reads the changed name as it reads the name. -/
theorem normaliseLoop_map (cap fuel : ℕ) (p out : Text) :
    normaliseLoop cap fuel (p.map f) (out.map f) =
      (normaliseLoop cap fuel p out).map (List.map f) := by
  induction fuel generalizing p out with
  | zero => rfl
  | succ fuel ih =>
    simp only [normaliseLoop, List.dropWhile_map, List.takeWhile_map, hf.comp_ne_sep,
      hf.comp_eq_sep, List.map_eq_nil_iff, hf.map_eq_here_iff, hf.map_eq_up_iff, List.length_map,
      hf.dropComponent_map, hf.addComponent_map, ih]
    split_ifs <;> rfl

theorem normalise_map (input : Text) (cap : ℕ) :
    normalise (input.map f) cap = (normalise input cap).map (List.map f) := by
  have := hf.normaliseLoop_map cap input.length input []
  rw [List.map_nil] at this
  rw [normalise, normalise, List.length_map, this]

end KeepsMarks

theorem rootLength_eq_three_iff {name : Text} :
    rootLength name = 3 ↔
      ∃ a s t, name = a :: ':' :: s :: t ∧ isLetter a = true ∧ (s = '/' ∨ s = '\\') := by
  unfold rootLength
  split_ifs with h₁ h₂
  · refine iff_of_false (by decide) ?_
    rintro ⟨a, s, t, rfl, ha, -⟩
    obtain rfl : a = '/' := by simpa using h₁
    exact absurd ha (by decide)
  · simp only [true_iff]
    match name, h₂ with
    | [], h => simp at h
    | [_], h => simp at h
    | [_, _], h => simp at h
    | a :: b :: s :: t, h =>
      obtain ⟨rfl, hs, ha⟩ : b = ':' ∧ (s = '/' ∨ s = '\\') ∧ isLetter a = true := by simpa using h
      exact ⟨a, s, t, rfl, ha, hs⟩
  · refine iff_of_false (by decide) ?_
    rintro ⟨a, s, t, rfl, ha, hs⟩
    exact h₂ (by simpa [ha] using hs)

theorem slashed_of_isLetter {a : Char} (h : isLetter a = true) : slashed a = a := by
  rw [slashed, if_neg]
  rintro rfl
  exact absurd h (by decide)

/-- A respelled path has a volume for its root where the path has. -/
theorem Respelled.rootLength {p q : Text} (h : Respelled p q) (hp : rootLength p = 3) :
    rootLength q = 3 := by
  obtain ⟨a, s, t, rfl, ha, hs⟩ := rootLength_eq_three_iff.mp hp
  rw [respelled_iff] at h
  match q, h with
  | [], h => simp at h
  | [_], h => simp at h
  | [_, _], h => simp at h
  | a' :: c :: s' :: t', h =>
    simp only [List.map_cons, List.cons.injEq] at h
    obtain ⟨h₀, h₁, h₂, -⟩ := h
    have hc : folded c = ':' := by
      rw [← h₁]
      decide
    refine rootLength_eq_three_iff.mpr ⟨a', s', t', ?_, ?_, ?_⟩
    · rw [(folded_eq_iff (by decide) (by decide) (by decide)).mp hc]
    · rw [← isLetter_folded, ← h₀, isLetter_folded, ha]
    · exact folded_eq_sep_iff.mp (h₂.symm.trans (folded_eq_sep_iff.mpr hs))

/-- `join` behind the root of a volume: the buffer is rewritten and normalised. -/
def joinBehind (root b r : Text) (cap : ℕ) : Except Errno Text :=
  if (joinBuffer b r).length + 1 ≥ okmMaxPath then .error .enametoolong
  else if 3 + 1 ≥ cap then .error .enametoolong
  else (normalise ((joinBuffer b r).map slashed) (cap - 3)).map (root.map slashed ++ ·)

theorem join_of_rooted {rel : Text} (base : Text) (cap : ℕ) (h : rootLength rel = 3) :
    join base rel cap = joinBehind (rel.take 3) [] (rel.drop 3) cap := by
  obtain ⟨a, s, t, rfl, -, -⟩ := rootLength_eq_three_iff.mp h
  simp [join, joinBehind, h]

theorem join_of_rooted_base {base rel : Text} (cap : ℕ) (hrel : rootLength rel = 0)
    (h : rootLength base = 3) :
    join base rel cap = joinBehind (base.take 3) (base.drop 3) rel cap := by
  obtain ⟨a, s, t, rfl, -, -⟩ := rootLength_eq_three_iff.mp h
  simp [join, joinBehind, hrel, h]

theorem joinBuffer_respelled {p q : Text} (b : Text) (h : p.map folded = q.map folded) :
    (joinBuffer b p).map folded = (joinBuffer b q).map folded := by
  have happ : ∀ (b : Text) (n : ℕ), (b ++ p.take n).map folded = (b ++ q.take n).map folded := by
    intro b n
    rw [List.map_append, List.map_append, List.map_take, List.map_take, h]
  exact happ _ _

/-- Spellings of what is joined behind a volume's root are joined to spellings. -/
theorem joinBehind_respelled {root root' p q : Text} (b : Text) (cap : ℕ)
    (hroot : root.map folded = root'.map folded) (h : p.map folded = q.map folded) :
    (joinBehind root b p cap).map (List.map lowerChar) =
      (joinBehind root' b q cap).map (List.map lowerChar) := by
  have hbuf := joinBuffer_respelled b h
  have hlen : (joinBuffer b p).length = (joinBuffer b q).length := by
    simpa using congrArg List.length hbuf
  have hfold : ∀ t : Text, (t.map slashed).map lowerChar = t.map folded := fun t => by
    rw [List.map_map]
    rfl
  -- normalising commutes with the case of the letters
  have hnorm : (normalise ((joinBuffer b p).map slashed) (cap - 3)).map (List.map lowerChar) =
      (normalise ((joinBuffer b q).map slashed) (cap - 3)).map (List.map lowerChar) := by
    rw [← keepsMarks_lowerChar.normalise_map, ← keepsMarks_lowerChar.normalise_map, hfold, hfold,
      hbuf]
  unfold joinBehind
  rw [hlen]
  split_ifs
  · rfl
  · rfl
  · have hmap : ∀ (root : Text) (x : Except Errno Text),
        (x.map (root.map slashed ++ ·)).map (List.map lowerChar) =
          (x.map (List.map lowerChar)).map (root.map folded ++ ·) := by
      intro root x
      cases x with
      | error e => rfl
      | ok out => simp [Except.map, ← hfold]
    rw [hmap, hmap, hnorm, hroot]

/-! ## The name of a path beneath a volume -/

/-- The name of a path beneath a volume: its own where it has one, and otherwise the directory's
with the path behind it. The volume is kept, and what follows it is cut at either separator and
reduced over a stack. -/
def volumeForm (base p : Text) : Text :=
  let name := if rootLength p = 0 then base ++ '/' :: p else p
  name.take 2 ++ '/' :: joined '/' (reduce here up (segments '/' ((name.drop 2).map slashed)))

/-- A path or a directory's name has a volume for its root. -/
def Rooted (base p : Text) : Prop := rootLength p = 3 ∨ rootLength p = 0 ∧ rootLength base = 3

theorem lexicalForm_of_rooted {base p : Text} (h : Rooted base p) :
    lexicalForm base p = volumeForm base p := by
  have hsep : ∀ s, s = '/' ∨ s = '\\' → slashed s = '/' := fun s hs => slashed_eq_iff.mpr hs
  have hcolon : slashed ':' = ':' := rfl
  have hslash : slashed '/' = '/' := rfl
  rcases h with h | ⟨h₀, h⟩
  · obtain ⟨a, s, t, rfl, ha, hs⟩ := rootLength_eq_three_iff.mp h
    simp [lexicalForm, volumeForm, formRoot, formParts, spelled, h, hsep s hs, hcolon,
      slashed_of_isLetter ha]
  · obtain ⟨a, s, t, rfl, ha, hs⟩ := rootLength_eq_three_iff.mp h
    simp [lexicalForm, volumeForm, formRoot, formParts, spelled, h, h₀, hsep s hs, hcolon, hslash,
      slashed_of_isLetter ha, segments_append_cons]

/-- A form beneath a volume: its letter, and a joined stack without backslashes behind the root. -/
structure BeneathVolume (abs : Text) (a : Char) (cs : List Text) : Prop where
  letter : isLetter a = true
  stack : Stack '/' here up cs
  plain : '\\' ∉ joined '/' cs
  eq : abs = a :: ':' :: '/' :: joined '/' cs

theorem exists_beneathVolume {base p : Text} (h : Rooted base p) :
    ∃ a cs, BeneathVolume (volumeForm base p) a cs := by
  have hback : ∀ t : Text, '\\' ∉ t.map slashed := by
    intro t ht
    obtain ⟨c, -, hc⟩ := List.mem_map.mp ht
    unfold slashed at hc
    split_ifs at hc with hb
    · exact absurd hc (by decide)
    · exact hb hc
  -- whatever follows the volume, its components are cut from a text without backslashes
  have hform : ∀ (a : Char) (t : Text), isLetter a = true → BeneathVolume
      ((a :: ':' :: t).take 2 ++ '/' ::
        joined '/' (reduce here up (segments '/' (((a :: ':' :: t).drop 2).map slashed)))) a
      (reduce here up (segments '/' (t.map slashed))) := by
    intro a t ha
    refine ⟨ha, stack_reduce fun c hc => component_of_mem_segments hc, fun hmem => ?_, by simp⟩
    rcases mem_joined hmem with hs | ⟨c, hc, hx⟩
    · exact absurd hs (by decide)
    · exact hback t (subset_of_mem_segments (reduce_ordinary hc).1 hx)
  unfold volumeForm
  rcases h with h | ⟨h₀, h⟩
  · obtain ⟨a, s, t, rfl, ha, -⟩ := rootLength_eq_three_iff.mp h
    rw [h, if_neg (by decide)]
    exact ⟨a, _, hform a (s :: t) ha⟩
  · obtain ⟨a, s, t, rfl, ha, -⟩ := rootLength_eq_three_iff.mp h
    rw [h₀, if_pos rfl]
    exact ⟨a, _, hform a (s :: t ++ '/' :: p) ha⟩

/-! ## Matching beneath a volume -/

theorem samePrefix_true_iff (name abs : Text) :
    samePrefix true name abs = true ↔ name.map folded <+: abs.map folded := by
  induction name generalizing abs with
  | nil => simp [samePrefix]
  | cons b name ih =>
    cases abs with
    | nil => simp [samePrefix]
    | cons a abs =>
      simp only [samePrefix, Bool.and_eq_true, sameChar_iff, ih, List.map_cons,
        List.cons_prefix_cons]
      exact and_congr_left fun _ => eq_comm

theorem getElem?_folded_iff (abs : Text) (n : ℕ) :
    (abs.map folded)[n]? = some '/' ↔ abs[n]? = some '/' ∨ abs[n]? = some '\\' := by
  rw [List.getElem?_map]
  cases abs[n]? with
  | none => simp
  | some c => simp [folded_eq_sep_iff]

/-- A volume's name matches a form as it is folded. -/
theorem isPrefixAtBoundary_volume_iff {name abs : Text} (hv : isVolume name = true) :
    isPrefixAtBoundary name abs = true ↔ name.map folded <+: abs.map folded ∧
      ((name.map folded).getLast? = some '/' ∨ abs.length = name.length ∨
        (abs.map folded)[name.length]? = some '/') := by
  have hlen : name.length ≠ 0 := by
    simp only [isVolume, Bool.and_eq_true, decide_eq_true_eq] at hv
    omega
  have hlast : (name.map folded).getLast? = some '/' ↔
      name.getLast? = some '/' ∨ name.getLast? = some '\\' := by
    rw [List.getLast?_eq_getElem?, List.getLast?_eq_getElem?, List.length_map,
      getElem?_folded_iff]
  rw [← samePrefix_true_iff, hlast, getElem?_folded_iff, isPrefixAtBoundary, if_neg hlen, hv]
  cases samePrefix true name abs with
  | false => simp
  | true =>
    simp only [Bool.not_true, Bool.false_eq_true, if_false, Bool.true_and, Bool.or_eq_true,
      decide_eq_true_eq, true_and]
    split_ifs with h
    · simp [h]
    · simp only [h, false_or, Bool.or_eq_true, decide_eq_true_eq]
      tauto

/-- Only a volume's name starts a form beneath a volume. -/
theorem isVolume_of_match {name t : Text} {a : Char} (ha : isLetter a = true)
    (h : isPrefixAtBoundary name (a :: ':' :: t) = true) : isVolume name = true := by
  by_contra hv
  rw [Bool.not_eq_true] at hv
  obtain ⟨hne, q, hq, hb⟩ := (isPrefixAtBoundary_iff hv).mp h
  have hslash : a ≠ '/' := by
    rintro rfl
    exact absurd ha (by decide)
  match name, hne with
  | [c], _ =>
    -- a single letter would have to be followed by a separator
    obtain ⟨rfl, rfl⟩ : a = c ∧ ':' :: t = q := by simpa using hq
    rcases hb with hb | hb | hb | hb
    · cases hb
    · exact hslash (by simpa using hb)
    · cases hb
    · exact absurd (Option.some.inj hb) (by decide)
  | c :: d :: name, _ =>
    have hd : ':' = d := by
      have := congrArg (·[1]?) hq
      simpa using this
    simp [isVolume, ← hd] at hv

/-- What remains of a form beneath a volume is a joined stack. -/
theorem BeneathVolume.exists_rest {abs name : Text} {a : Char} {cs : List Text}
    (habs : BeneathVolume abs a cs) (h : isPrefixAtBoundary name abs = true) :
    ∃ ds, Stack '/' here up ds ∧ '\\' ∉ joined '/' ds ∧
      (abs.drop name.length).dropWhile (fun c => c = '/' || (c = '\\' && isVolume name)) =
        joined '/' ds := by
  obtain ⟨ha, hcs, hplain, rfl⟩ := habs
  have hv := isVolume_of_match ha h
  obtain ⟨hpre, hend⟩ := (isPrefixAtBoundary_volume_iff hv).mp h
  have hlen : 2 ≤ name.length := by
    simp only [isVolume, Bool.and_eq_true, decide_eq_true_eq] at hv
    exact hv.1
  -- a joined stack without backslashes begins with no separator
  have hrest : ∀ {ds : List Text} {q : Text}, Stack '/' here up ds → '\\' ∉ joined '/' ds →
      (q = joined '/' ds ∨ q = '/' :: joined '/' ds) →
      q.dropWhile (fun c => c = '/' || (c = '\\' && isVolume name)) = joined '/' ds := by
    intro ds q hds hback hq
    have hself : (joined '/' ds).dropWhile (fun c => c = '/' || (c = '\\' && isVolume name)) =
        joined '/' ds := by
      have hhead := head?_joined_ne hds.component
      cases hj : joined '/' ds with
      | nil => rfl
      | cons x t =>
        rw [hj] at hhead hback
        have h₁ : x ≠ '/' := by simpa using hhead
        have h₂ : x ≠ '\\' := fun he => hback (by simp [he])
        simp [h₁, h₂]
    rcases hq with rfl | rfl
    · exact hself
    · simpa using hself
  obtain ⟨k, hk⟩ := Nat.exists_eq_add_of_le hlen
  cases k with
  | zero =>
    -- the bare volume: the root's own separator remains
    refine ⟨cs, hcs, hplain, hrest hcs hplain (Or.inr ?_)⟩
    rw [hk]
    rfl
  | succ k =>
    have hdrop : (a :: ':' :: '/' :: joined '/' cs).drop name.length = (joined '/' cs).drop k := by
      rw [hk, show 2 + (k + 1) = k + 3 by omega]
      rfl
    have hfold : ∀ {n : ℕ}, ((joined '/' cs).map folded)[n]? = some '/' →
        (joined '/' cs)[n]? = some '/' := by
      intro n hn
      refine ((getElem?_folded_iff _ n).mp hn).resolve_right fun hback => ?_
      exact hplain (List.mem_of_getElem? hback)
    have hb : Boundary '/' ((joined '/' cs).take k) ((joined '/' cs).drop k) := by
      rcases hend with hlast | hfull | hnext
      · -- the name ends in a separator, and so does what it is compared with
        cases k with
        | zero => exact Or.inl rfl
        | succ k =>
          right; left
          obtain ⟨t, ht⟩ := hpre
          rw [List.getLast?_eq_getElem?, List.length_map, hk,
            show 2 + (k + 1 + 1) - 1 = k + 3 by omega] at hlast
          have hget : ((a :: ':' :: '/' :: joined '/' cs).map folded)[k + 3]? = some '/' := by
            rw [← ht, List.getElem?_append_left (by rw [List.length_map]; omega), hlast]
          have hc := hfold (n := k) (by simpa using hget)
          obtain ⟨hlt, hx⟩ := List.getElem?_eq_some_iff.mp hc
          rw [List.getLast?_eq_getElem?, List.length_take, Nat.min_eq_left (by omega),
            List.getElem?_take, if_pos (by omega), Nat.add_sub_cancel, hc]
      · right; right; left
        rw [hk] at hfull
        simp only [List.length_cons] at hfull
        exact List.drop_eq_nil_of_le (by omega)
      · right; right; right
        rw [hk, show 2 + (k + 1) = k + 3 by omega] at hnext
        rw [List.head?_drop]
        exact hfold (by simpa using hnext)
    obtain ⟨ds, hds, hq⟩ := exists_suffix_of_boundary hcs.component
      (List.take_append_drop k (joined '/' cs)).symm hb
    have hback : '\\' ∉ joined '/' ds := by
      intro hmem
      refine hplain (List.mem_of_mem_drop (i := k) ?_)
      rcases hq with hq | ⟨-, hq⟩ <;> rw [hq]
      · exact hmem
      · exact List.mem_cons_of_mem _ hmem
    refine ⟨ds, hcs.of_suffix hds, hback, ?_⟩
    rw [hdrop]
    exact hrest (hcs.of_suffix hds) hback (hq.imp_right And.right)

/-- The same supplied directory is chosen for two forms that are folded alike. -/
theorem bestPreopen_respelled {abs abs' t t' : Text} {a a' : Char} (ha : isLetter a = true)
    (ha' : isLetter a' = true) (habs : abs = a :: ':' :: t) (habs' : abs' = a' :: ':' :: t')
    (h : abs.map folded = abs'.map folded) (pre : List Preopen) (best : Option Preopen) :
    bestPreopen abs pre best = bestPreopen abs' pre best := by
  have hmatch : ∀ name, isPrefixAtBoundary name abs = isPrefixAtBoundary name abs' := by
    intro name
    have hlen : abs.length = abs'.length := by simpa using congrArg List.length h
    by_cases hv : isVolume name = true
    · rw [Bool.eq_iff_iff, isPrefixAtBoundary_volume_iff hv, isPrefixAtBoundary_volume_iff hv, h,
        hlen]
    · have hno : ∀ {abs t : Text} {a : Char}, isLetter a = true → abs = a :: ':' :: t →
          isPrefixAtBoundary name abs = false := by
        rintro abs t a ha rfl
        rw [← Bool.not_eq_true]
        exact fun hm => hv (isVolume_of_match ha hm)
      rw [hno ha habs, hno ha' habs']
  induction pre generalizing best with
  | nil => rfl
  | cons p pre ih => simp only [bestPreopen, hmatch, ih]

/-! ## Two spellings of one path -/

/-- A remainder without an empty, `.` or `..` component by either separator, or the place
itself. -/
def CleanRel (rel : Text) : Prop := rel = here ∨ NormalName '/' here up (rel.map slashed)

theorem cleanRel_relName {ds : List Text} (hds : Stack '/' here up ds)
    (hback : '\\' ∉ joined '/' ds) : CleanRel (relName ds) := by
  unfold relName
  split_ifs with hnil
  · exact Or.inl rfl
  · right
    have hplain : (joined '/' ds).map slashed = (joined '/' ds).map id :=
      List.map_congr_left fun c hc => if_neg fun he : c = '\\' => hback (he ▸ hc)
    rw [hplain, List.map_id]
    exact normalName_joined hds hnil

namespace PortState

/-- Two paths are refused with the same error, or resolved to one directory with remainders that
are the same once separators are rewritten, and that are clean. -/
def SpellingsAgree (w : PortState) (dirfd : Int) (p q : Text) : Prop :=
  ∀ emptyOk,
    (∃ e, w.okmResolve dirfd (some p) emptyOk = .error e ∧
      w.okmResolve dirfd (some q) emptyOk = .error e) ∨
    ∃ x y, w.okmResolve dirfd (some p) emptyOk = .ok x ∧
      w.okmResolve dirfd (some q) emptyOk = .ok y ∧ x.base = y.base ∧
      x.rel.map slashed = y.rel.map slashed ∧ CleanRel x.rel ∧ CleanRel y.rel

/-- Two spellings of a path, absolute with a volume or relative to `base`: separators may differ,
and letters only in the part that the chosen supplied directory's name matches. -/
def Spellings (w : PortState) (base p q : Text) : Prop :=
  Respelled p q ∧ rootLength p ≠ 1 ∧ rootLength q ≠ 1 ∧
    ∀ s, bestPreopen (volumeForm base p) w.pre none = some s →
      (volumeForm base p).drop s.name.length = (volumeForm base q).drop s.name.length

/-- Relative to a directory named `base`, and for absolute paths with a volume, either separator
separates. -/
def EitherSeparates (w : PortState) (dirfd : Int) (base : Text) : Prop :=
  ∀ p q, w.Spellings base p q → w.SpellingsAgree dirfd p q

/-- A relative path is joined to the name of its directory. -/
theorem okmResolve_of_relative {w : PortState} {dirfd : Int} {base p : Text}
    (h₀ : rootLength p = 0) (hbase : w.joinedTo dirfd [] = some base) (emptyOk : Bool) :
    w.okmResolve dirfd (some p) emptyOk =
      if p = [] ∧ emptyOk = false then .error .enoent
      else (join base p okmMaxPath).bind fun abs => w.matchPreopen abs 0 := by
  have hnil : rootLength [] = 0 := rfl
  have hnormal : alreadyNormal p = 0 := by
    simp [alreadyNormal, rootLength_eq_zero_of_head h₀]
  simp only [okmResolve, hnormal, h₀, ne_eq, not_true_eq_false, if_false]
  simp only [joinedTo, hnil, ne_eq, not_true_eq_false, if_false] at hbase
  by_cases hcwd : dirfd = atFdcwd
  · rw [if_pos hcwd] at hbase ⊢
    cases hbase
    rfl
  · rw [if_neg hcwd] at hbase ⊢
    obtain ⟨d, hd, hname⟩ := Option.bind_eq_some_iff.mp hbase
    split_ifs at hname with hkind
    simp [hd, hkind, hname]

theorem okmResolve_of_rooted {w : PortState} {dirfd : Int} {base p : Text} (h : Rooted base p)
    (hbase : rootLength p = 3 ∨ w.joinedTo dirfd [] = some base) (emptyOk : Bool) :
    w.okmResolve dirfd (some p) emptyOk =
      if p = [] ∧ emptyOk = false then .error .enoent
      else (join base p okmMaxPath).bind fun abs => w.matchPreopen abs 0 := by
  by_cases hroot : rootLength p = 3
  · obtain ⟨a, s, t, rfl, ha, -⟩ := rootLength_eq_three_iff.mp hroot
    have hslash : a ≠ '/' := by
      rintro rfl
      exact absurd ha (by decide)
    have hnormal : alreadyNormal (a :: ':' :: s :: t) = 0 := by simp [alreadyNormal, hslash]
    simp only [okmResolve, hnormal, ne_eq, not_true_eq_false, if_false]
    have h₃ : ¬ rootLength (a :: ':' :: s :: t) = 0 := by omega
    rw [if_pos h₃, join_of_rooted [] _ hroot, join_of_rooted base _ hroot]
  · exact okmResolve_of_relative (h.resolve_left hroot).1 (hbase.resolve_left hroot) emptyOk

/-- What the supplied directories make of a form beneath a volume. -/
theorem matchPreopen_beneath {w : PortState} {abs : Text} {a : Char} {cs : List Text}
    (habs : BeneathVolume abs a cs) (hlen : abs.length < okmMaxPath) :
    (bestPreopen abs w.pre none = none ∧ w.matchPreopen abs 0 = .error .enoent) ∨
      ∃ s ds, bestPreopen abs w.pre none = some s ∧ Stack '/' here up ds ∧
        '\\' ∉ joined '/' ds ∧
        (abs.drop s.name.length).dropWhile (fun c => c = '/' || (c = '\\' && isVolume s.name)) =
          joined '/' ds ∧
        w.matchPreopen abs 0 = .ok ⟨s.dir, relName ds, (relName ds).length⟩ := by
  unfold matchPreopen
  cases hbest : bestPreopen abs w.pre none with
  | none => exact Or.inl ⟨rfl, rfl⟩
  | some s =>
    right
    obtain ⟨hs, -, -⟩ := bestPreopen_eq_some hbest
    obtain ⟨ds, hds, hback, hdrop⟩ := habs.exists_rest (hs.resolve_left (by simp)).2
    refine ⟨s, ds, rfl, hds, hback, hdrop, ?_⟩
    have hlt : (joined '/' ds).length < okmMaxPath := by
      rw [← hdrop]
      exact ((List.dropWhile_suffix _).length_le.trans (by simp)).trans_lt hlen
    simp only [hdrop, ne_eq, not_true_eq_false, if_false]
    rw [copyStr_of_lt (by decide), copyStr_of_lt hlt, List.take_length]
    by_cases hnil : ds = []
    · simp [hnil, relName, here]
    · rw [if_neg (by simpa [joined_eq_nil_iff hds.component] using hnil), relName, if_neg hnil]

/-- **Behind a volume's root spellings agree.** -/
theorem spellingsAgree_of_rooted {w : PortState} {dirfd : Int} {base p q : Text}
    (h : Rooted base p) (hbase : rootLength p = 3 ∨ w.joinedTo dirfd [] = some base)
    (hs : w.Spellings base p q) : w.SpellingsAgree dirfd p q := by
  obtain ⟨hre, hp₁, hq₁, hcase⟩ := hs
  have hfold := respelled_iff.mp hre
  have hback : Respelled q p := respelled_iff.mpr hfold.symm
  -- the other spelling has the same root
  have hqp : rootLength q = 3 ↔ rootLength p = 3 := ⟨hback.rootLength, hre.rootLength⟩
  have hq : Rooted base q := by
    rcases h with h | ⟨h₀, h⟩
    · exact Or.inl (hre.rootLength h)
    · refine Or.inr ⟨?_, h⟩
      rcases rootLength_cases q with hq | ⟨hq, -⟩ | ⟨hq, -, -⟩
      · exact hq
      · exact absurd hq hq₁
      · rw [hqp.mp hq] at h₀
        exact absurd h₀ (by decide)
  have hnil : p = [] ↔ q = [] := by
    have := congrArg List.length hfold
    rw [List.length_map, List.length_map] at this
    rw [← List.length_eq_zero_iff, ← List.length_eq_zero_iff, this]
  -- what is joined is folded alike
  have hjoin : (join base p okmMaxPath).map (List.map lowerChar) =
      (join base q okmMaxPath).map (List.map lowerChar) := by
    rcases h with h | ⟨h₀, h⟩
    · rw [join_of_rooted base _ h, join_of_rooted base _ (hre.rootLength h)]
      refine joinBehind_respelled _ _ ?_ ?_
      · rw [List.map_take, List.map_take, hfold]
      · rw [List.map_drop, List.map_drop, hfold]
    · have hq₀ : rootLength q = 0 := by
        rcases hq with hq | hq
        · rw [hqp.mp hq] at h₀
          exact absurd h₀ (by decide)
        · exact hq.1
      rw [join_of_rooted_base _ h₀ h, join_of_rooted_base _ hq₀ h]
      exact joinBehind_respelled _ _ rfl hfold
  intro emptyOk
  rw [okmResolve_of_rooted h hbase, okmResolve_of_rooted hq (hbase.imp_left hqp.mpr)]
  by_cases hempty : p = [] ∧ emptyOk = false
  · rw [if_pos hempty, if_pos ⟨hnil.mp hempty.1, hempty.2⟩]
    exact Or.inl ⟨_, rfl, rfl⟩
  rw [if_neg hempty, if_neg fun he => hempty ⟨hnil.mpr he.1, he.2⟩]
  rcases join_cases base p okmMaxPath with hjp | ⟨hjp, hlt⟩ <;>
    rcases join_cases base q okmMaxPath with hjq | ⟨hjq, hlt'⟩ <;>
    rw [hjp, hjq] at hjoin ⊢
  · exact Or.inl ⟨_, rfl, rfl⟩
  · cases hjoin
  · cases hjoin
  · -- both have a form, and the forms are folded alike
    rw [lexicalForm_of_rooted h] at hjoin hlt ⊢
    rw [lexicalForm_of_rooted hq] at hjoin hlt' ⊢
    obtain ⟨a, cs, hform⟩ := exists_beneathVolume h
    obtain ⟨a', cs', hform'⟩ := exists_beneathVolume hq
    have hsame : (volumeForm base p).map folded = (volumeForm base q).map folded := by
      have := congrArg (List.map slashed) (Except.ok.inj hjoin)
      rw [List.map_map, List.map_map] at this
      simpa only [Function.comp_def, slashed_lowerChar] using this
    have hbest := bestPreopen_respelled hform.letter hform'.letter hform.eq hform'.eq hsame w.pre
      none
    change (∃ e, w.matchPreopen _ 0 = _ ∧ w.matchPreopen _ 0 = _) ∨
      ∃ x y, w.matchPreopen _ 0 = _ ∧ w.matchPreopen _ 0 = _ ∧ _
    rcases w.matchPreopen_beneath hform hlt with ⟨hb, hm⟩ | ⟨s, ds, hb, hds, hplain, hrest, hm⟩ <;>
      rcases w.matchPreopen_beneath hform' hlt' with
        ⟨hb', hm'⟩ | ⟨s', ds', hb', hds', hplain', hrest', hm'⟩ <;>
      rw [hb, hb'] at hbest
    · exact Or.inl ⟨_, hm, hm'⟩
    · cases hbest
    · cases hbest
    · -- the same directory is chosen, and behind its name the forms are the same
      obtain rfl := Option.some.inj hbest
      rw [← hcase s hb, hrest] at hrest'
      have hstack : ds = ds' := by
        rw [← segments_joined hds.component, hrest', segments_joined hds'.component]
      subst hstack
      exact Or.inr ⟨_, _, hm, hm', rfl, rfl, cleanRel_relName hds hplain,
        cleanRel_relName hds hplain⟩

/-! ## Relative to the bare name of a volume -/

/-- The name of a volume, bare or with its root. -/
def VolumeName (base : Text) : Prop :=
  (∃ a, isLetter a = true ∧ base = [a, ':']) ∨ rootLength base = 3

/-- Behind the bare name of a volume a component is kept as it is spelled. -/
theorem join_bare {a : Char} {p : Text} (ha : isLetter a = true) (hroot : rootLength p = 0)
    (hp : Component '/' p) (hord : Ordinary here up p) (hlen : p.length + 4 < okmMaxPath) :
    join [a, ':'] p okmMaxPath = .ok (a :: ':' :: '/' :: p) := by
  have hslash : a ≠ '/' := by
    rintro rfl
    exact absurd ha (by decide)
  have hbase : rootLength [a, ':'] = 0 := by simp [rootLength, hslash]
  have hbuf : joinBuffer [a, ':'] p = a :: ':' :: '/' :: p := by
    have htake : p.take (okmMaxPath - 1 - [a, ':', '/'].length) = p :=
      List.take_of_length_le (by simp only [List.length_cons, List.length_nil]; omega)
    have hshort : ([a, ':'] : Text).take (okmMaxPath - 1) = [a, ':'] := rfl
    simp only [joinBuffer, hshort]
    rw [if_pos (by simp), if_pos (by simp [okmMaxPath])]
    rw [show ([a, ':'] ++ ['/'] : Text) = [a, ':', '/'] from rfl, htake]
    rfl
  have hvol : Component '/' [a, ':'] := ⟨by simp, by simp [Ne.symm hslash]⟩
  have hcs : Stack '/' here up [[a, ':'], p] := by
    intro c hc
    rcases List.mem_cons.mp hc with rfl | hc
    · exact ⟨hvol, by simp [Ordinary, here, up]⟩
    · obtain rfl := List.mem_singleton.mp hc
      exact ⟨hp, hord⟩
  have hjoined : joined '/' [[a, ':'], p] = a :: ':' :: '/' :: p := by
    rw [joined_cons (by simp), joined_singleton]
    rfl
  have hseg : segments '/' (a :: ':' :: '/' :: p) = [[a, ':'], p] := by
    rw [← hjoined, segments_joined hcs.component]
  have hfit : FitsThroughout okmMaxPath [[a, ':'], p] := by
    refine fitsThroughout_of_head hcs ?_ ?_
    · rw [hjoined]
      simp only [List.length_cons]
      omega
    · intro c hc
      obtain rfl : [a, ':'] = c := by simpa using hc
      exact (by decide : 4 ≤ okmMaxPath)
  simp only [join, hroot, hbase, ne_eq, not_true_eq_false, if_false, List.drop_zero, hbuf]
  rw [if_neg (by simp only [List.length_cons]; omega), if_neg (by decide), if_neg (by simp),
    normalise_of_fits (by rw [Nat.sub_zero, hseg]; exact hfit), lexicalReduction, reducedStack,
    hseg,
    reduce_eq_self fun c hc => (hcs c hc).2, hjoined]
  rfl

/-- Dropping stops before what is not dropped. -/
theorem exists_dropWhile_append {f : Char → Bool} {b : Char} (hb : f b = false) (u v : Text) :
    ∃ z, (u ++ b :: v).dropWhile f = z ++ b :: v := by
  induction u with
  | nil => exact ⟨[], by simp [hb]⟩
  | cons c u ih =>
    by_cases hc : f c = true
    · simpa [hc] using ih
    · exact ⟨c :: u, by simp [hc]⟩

theorem not_cleanRel_of_dot (z : Text) : ¬ CleanRel (z ++ ['b', '\\', '.']) := by
  rintro (h | ⟨-, h⟩)
  · have := congrArg List.length h
    simp [here] at this
  · have hmap : (z ++ ['b', '\\', '.']).map slashed = z.map slashed ++ ['b'] ++ '/' :: here := by
      simp [slashed, here]
    rw [hmap, List.splitOn_append_cons_self] at h
    have hdot : here.splitOn '/' = [here] := List.splitOn_eq_singleton (by decide)
    exact (h here (by simp [hdot])).2.1 rfl

/-- A component longer than every supplied name. -/
def longComponent : Text := List.replicate 300 'b'

theorem longComponent_eq :
    ∃ t, longComponent = 'b' :: 'b' :: (t ++ ['b']) ∧ t.length = 297 :=
  ⟨List.replicate 297 'b', by decide +kernel, List.length_replicate⟩

/-- Relative to the bare name of a volume that is supplied, a dot behind a backslash stays. -/
theorem exists_okmResolve_bare {w : PortState} {dirfd : Int} {a : Char} {s₀ : Preopen}
    (hnames : ∀ s ∈ w.pre, s.name.length < 256) (ha : isLetter a = true)
    (hbase : w.joinedTo dirfd [] = some [a, ':']) (hs₀ : s₀ ∈ w.pre)
    (hmatch : isPrefixAtBoundary s₀.name [a, ':'] = true) (emptyOk : Bool) :
    ∃ x, w.okmResolve dirfd (some (longComponent ++ ['\\', '.'])) emptyOk = .ok x ∧
      ¬ CleanRel x.rel := by
  obtain ⟨t, ht, htlen⟩ := longComponent_eq
  have hlen : longComponent.length = 300 := by rw [longComponent, List.length_replicate]
  have hmem : ∀ c ∈ longComponent, c = 'b' := fun c hc => List.eq_of_mem_replicate hc
  have hplain : '/' ∉ longComponent ++ ['\\', '.'] := by
    intro h
    rcases List.mem_append.mp h with h | h
    · exact absurd (hmem _ h) (by decide)
    · exact absurd h (by decide)
  have hroot : rootLength (longComponent ++ ['\\', '.']) = 0 := by
    rw [ht]
    simp [rootLength]
  have hord : Ordinary here up (longComponent ++ ['\\', '.']) := by
    constructor <;> refine ne_of_apply_ne List.length ?_ <;> rw [List.length_append, hlen] <;>
      decide
  have hjoin := join_bare ha hroot ⟨by simp, hplain⟩ hord
    (by rw [List.length_append, hlen]; decide)
  have hres := okmResolve_of_relative (p := longComponent ++ ['\\', '.']) hroot hbase emptyOk
  rw [if_neg (by simp), hjoin] at hres
  -- the supplied volume matches, so one is chosen; no name reaches behind the long component
  have habs : isPrefixAtBoundary s₀.name
      (a :: ':' :: '/' :: (longComponent ++ ['\\', '.'])) = true := by
    have hv := isVolume_of_match ha hmatch
    have h2 : 2 ≤ s₀.name.length := by
      simp only [isVolume, Bool.and_eq_true, decide_eq_true_eq] at hv
      exact hv.1
    obtain ⟨hpre, -⟩ := (isPrefixAtBoundary_volume_iff hv).mp hmatch
    have hle := hpre.length_le
    rw [List.length_map, List.length_map] at hle
    have hlen₀ : s₀.name.length = 2 := le_antisymm hle h2
    refine (isPrefixAtBoundary_volume_iff hv).mpr ⟨hpre.trans ?_, Or.inr (Or.inr ?_)⟩
    · exact ⟨('/' :: (longComponent ++ ['\\', '.'])).map folded, by simp⟩
    · rw [hlen₀]
      rfl
  cases hbest : bestPreopen (a :: ':' :: '/' :: (longComponent ++ ['\\', '.'])) w.pre none with
  | none =>
    have := (bestPreopen_eq_none_iff.mp hbest).2 s₀ hs₀
    rw [habs] at this
    cases this
  | some s =>
    have hshort := hnames s ((bestPreopen_eq_some hbest).1.resolve_left (by simp)).1
    have hcut : a :: ':' :: '/' :: (longComponent ++ ['\\', '.']) =
        (a :: ':' :: '/' :: 'b' :: 'b' :: t) ++ ['b', '\\', '.'] := by
      rw [ht]
      simp
    obtain ⟨z, hz⟩ := exists_dropWhile_append
      (f := fun c => c = '/' || (c = '\\' && isVolume s.name)) (b := 'b') (by simp)
      ((a :: ':' :: '/' :: 'b' :: 'b' :: t).drop s.name.length) ['\\', '.']
    have hrest : ((a :: ':' :: '/' :: (longComponent ++ ['\\', '.'])).drop
        s.name.length).dropWhile (fun c => c = '/' || (c = '\\' && isVolume s.name)) =
        z ++ ['b', '\\', '.'] := by
      rw [hcut, List.drop_append_of_le_length (by
        simp only [List.length_cons, htlen]; omega)]
      exact hz
    have hlt : (z ++ ['b', '\\', '.']).length < okmMaxPath := by
      rw [← hrest]
      refine ((List.dropWhile_suffix _).length_le.trans ?_).trans_lt
        (by decide : 305 < okmMaxPath)
      rw [List.length_drop, List.length_cons, List.length_cons, List.length_cons,
        List.length_append, hlen]
      simp
    refine ⟨⟨s.dir, z ++ ['b', '\\', '.'], (z ++ ['b', '\\', '.']).length⟩, ?_,
      not_cleanRel_of_dot z⟩
    rw [hres]
    change w.matchPreopen _ 0 = _
    simp only [matchPreopen, hbest, hrest, ne_eq, not_true_eq_false, if_false]
    rw [if_neg (by simp), copyStr_of_lt hlt, List.take_length]

/-- **Where either separator separates.** Absolute paths with a volume are resolved alike however
they are spelled. Relative to a directory named by a volume, paths are exactly where that name has
a root behind the volume. -/
theorem eitherSeparates_iff (w : PortState) (dirfd : Int) (base : Text) :
    (∀ p q, rootLength p = 3 → w.Spellings base p q → w.SpellingsAgree dirfd p q) ∧
      ((∀ s ∈ w.pre, s.name.length < 256) → w.joinedTo dirfd [] = some base → VolumeName base →
        (rootLength base = 3 ∨ ∃ s ∈ w.pre, isPrefixAtBoundary s.name base = true) →
          (w.EitherSeparates dirfd base ↔ rootLength base = 3)) := by
  refine ⟨fun p q hp hs => spellingsAgree_of_rooted (Or.inl hp) (Or.inl hp) hs, ?_⟩
  intro hnames hbase hvol hsupplied
  constructor
  · intro heither
    refine hvol.resolve_left ?_
    rintro ⟨a, ha, rfl⟩
    have hbare : rootLength [a, ':'] ≠ 3 := fun h => by
      obtain ⟨_, _, _, he, -⟩ := rootLength_eq_three_iff.mp h
      simp at he
    obtain ⟨s₀, hs₀, hmatch⟩ := hsupplied.resolve_left hbare
    obtain ⟨x, hx, hdirty⟩ := exists_okmResolve_bare hnames ha hbase hs₀ hmatch false
    have hroot : rootLength (longComponent ++ ['\\', '.']) = 0 := by
      obtain ⟨t, ht, -⟩ := longComponent_eq
      rw [ht]
      simp [rootLength]
    -- the spelling is its own respelling, and what it is resolved to is not clean
    have hs : w.Spellings [a, ':'] (longComponent ++ ['\\', '.']) (longComponent ++ ['\\', '.']) :=
      ⟨respelled_iff.mpr rfl, by rw [hroot]; decide, by rw [hroot]; decide, fun _ _ => rfl⟩
    rcases heither _ _ hs false with ⟨e, he, -⟩ | ⟨y, _, hy, -, -, -, hclean, -⟩
    · rw [hx] at he
      cases he
    · rw [hx] at hy
      cases hy
      exact hdirty hclean
  · intro hroot p q hs
    have hp : Rooted base p := by
      rcases rootLength_cases p with h | ⟨h, -⟩ | ⟨h, -, -⟩
      · exact Or.inr ⟨h, hroot⟩
      · exact absurd h hs.2.1
      · exact Or.inl h
    exact spellingsAgree_of_rooted hp (Or.inr hbase) hs

/-- A program whose one supplied directory is a volume, under the name given. -/
def volumeTable (name : Text) : PortState :=
  okmTableInit 1 { Start.supplied with preopens := [some ⟨7, name⟩] }

theorem eitherSeparates_iff_volumeTable :
    SpellingsAgree (volumeTable ['C', ':', '/']) atFdcwd ['c', ':', '\\', 'x']
        ['C', ':', '/', 'x'] ∧
      (EitherSeparates (volumeTable ['C', ':', '/']) atFdcwd ['C', ':', '/'] ↔
        rootLength ['C', ':', '/'] = 3) := by
  constructor
  · refine (eitherSeparates_iff _ atFdcwd []).1 _ _ (by decide) ?_
    refine ⟨respelled_iff.mpr (by decide), by decide, by decide, fun s hs => ?_⟩
    have hbest : bestPreopen (volumeForm [] ['c', ':', '\\', 'x'])
        (volumeTable ['C', ':', '/']).pre none = some ⟨7, ['C', ':', '/']⟩ := by decide +kernel
    rw [hbest] at hs
    cases hs
    decide
  · exact (eitherSeparates_iff _ atFdcwd _).2 (by decide +kernel) (by decide +kernel)
      (Or.inr (by decide)) (Or.inl (by decide))

/-- Relative to `C:` a backslash does not separate, and what it does not separate stays. -/
theorem bare_volume_keeps_dots :
    (volumeTable ['C', ':']).joinedTo atFdcwd [] = some ['C', ':'] ∧
      Spellings (volumeTable ['C', ':']) ['C', ':'] ['x', '\\', '.', '.', '\\', 'y']
        ['x', '/', '.', '.', '/', 'y'] ∧
      (volumeTable ['C', ':']).okmResolve atFdcwd (some ['x', '\\', '.', '.', '\\', 'y']) false =
        .ok ⟨7, ['x', '\\', '.', '.', '\\', 'y'], 6⟩ ∧
      (volumeTable ['C', ':']).okmResolve atFdcwd (some ['x', '/', '.', '.', '/', 'y']) false =
        .ok ⟨7, ['y'], 1⟩ ∧
      ¬ EitherSeparates (volumeTable ['C', ':']) atFdcwd ['C', ':'] := by
  have hs : Spellings (volumeTable ['C', ':']) ['C', ':'] ['x', '\\', '.', '.', '\\', 'y']
      ['x', '/', '.', '.', '/', 'y'] := by
    have hform : volumeForm ['C', ':'] ['x', '\\', '.', '.', '\\', 'y'] =
        volumeForm ['C', ':'] ['x', '/', '.', '.', '/', 'y'] := by decide
    exact ⟨respelled_iff.mpr (by decide), by decide, by decide, fun s _ => by rw [hform]⟩
  have hp : (volumeTable ['C', ':']).okmResolve atFdcwd
      (some ['x', '\\', '.', '.', '\\', 'y']) false =
      .ok ⟨7, ['x', '\\', '.', '.', '\\', 'y'], 6⟩ := by decide +kernel
  have hq : (volumeTable ['C', ':']).okmResolve atFdcwd
      (some ['x', '/', '.', '.', '/', 'y']) false = .ok ⟨7, ['y'], 1⟩ := by decide +kernel
  refine ⟨by decide +kernel, hs, hp, hq, fun heither => ?_⟩
  rcases heither _ _ hs false with ⟨e, he, -⟩ | ⟨x, y, hx, hy, -, hrel, -⟩
  · rw [hp] at he
    cases he
  · rw [hp] at hx
    rw [hq] at hy
    cases hx
    cases hy
    exact absurd hrel (by decide)

end PortState

end OpenkalMusl
