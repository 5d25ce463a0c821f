import OpenkalMusl.Lexical.Reduction
import OpenkalMusl.Port.Basic

/-!
# Removing `.`, `..` and empty components

`normalise` of `okm_fd.c`: the name is scanned once, and the output buffer is the stack of the
components kept so far, written with separators. A component that ascends cuts the buffer back
to the separator before its last component. Before a component is copied the room for it is
checked, so a name is refused where it does not fit at the point it is read.

The bottom layer scans characters; over it, `normalise` is the lexical reduction of the name's
components, refused exactly where a component does not fit.

## Main definitions

* `normalise input cap`: the source's function, into a buffer of `cap` bytes
* `reducedStack`, `lexicalReduction`: the stack of a name's components, and the name it spells
* `FitsThroughout cap cs`: every component kept had room when it was read

## Main results

* `normaliseLoop_eq`: the scan reads the components over the stack
* `normalise_eq_ok_iff`, `normalise_eq_error_iff`: what is returned, and when it is refused
* `length_lt_of_normalise`: the result and its terminating zero fit the buffer
-/

namespace OpenkalMusl

open Lexical

/-- The component that names the place itself. -/
def here : Text := ['.']

/-- The component that ascends. -/
def up : Text := ['.', '.']

/-- The output after a component that ascends: its last component goes, and the separator
before it. -/
def dropComponent (out : Text) : Text := (out.rdropWhile (· ≠ '/')).dropLast

/-- The output after one more component is copied. -/
def addComponent (out s : Text) : Text := (if out = [] then [] else out ++ ['/']) ++ s

/-- The loop of `normalise`. Every turn reads at least one character of `p`, so the length of
the name is fuel enough. -/
def normaliseLoop (cap : ℕ) : ℕ → Text → Text → Except Errno Text
  | 0, _, out => .ok out
  | fuel + 1, p, out =>
    let p := p.dropWhile (· = '/')
    if p = [] then .ok out
    else
      let s := p.takeWhile (· ≠ '/')
      let p := p.dropWhile (· ≠ '/')
      if s = here then normaliseLoop cap fuel p out
      else if s = up then normaliseLoop cap fuel p (dropComponent out)
      else if out.length + s.length + 2 > cap then .error .enametoolong
      else normaliseLoop cap fuel p (addComponent out s)

/-- The name without `.`, `..` and empty components, in a buffer of `cap` bytes. -/
def normalise (input : Text) (cap : ℕ) : Except Errno Text :=
  normaliseLoop cap input.length input []

/-! ## The lexical reduction of a name -/

/-- The components of a name read over a stack. -/
def reducedStack (name : Text) : List Text := reduce here up (segments '/' name)

/-- The lexical reduction of a name: the components left, joined by single separators. -/
def lexicalReduction (name : Text) : Text := joined '/' (reducedStack name)

/-- Reading `cs`, every component that is kept has room in a buffer of `cap` bytes at the point
it is read, with a separator and the terminating zero. -/
def FitsThroughout (cap : ℕ) (cs : List Text) : Prop :=
  ∀ pre c, pre ++ [c] <+: cs → Ordinary here up c →
    (joined '/' (reduce here up pre)).length + c.length + 2 ≤ cap

theorem stack_reduce_segments (name : Text) : Stack '/' here up (reducedStack name) :=
  stack_reduce fun _ hc => component_of_mem_segments hc

theorem FitsThroughout.mono {cap : ℕ} {cs ds : List Text} (h : FitsThroughout cap ds)
    (hp : cs <+: ds) : FitsThroughout cap cs := fun pre c hpre => h pre c (hpre.trans hp)

theorem fitsThroughout_nil (cap : ℕ) : FitsThroughout cap [] := by
  intro pre c h
  simp at h

theorem fitsThroughout_concat {cap : ℕ} {cs : List Text} {c : Text} :
    FitsThroughout cap (cs ++ [c]) ↔ FitsThroughout cap cs ∧
      (Ordinary here up c → (joined '/' (reduce here up cs)).length + c.length + 2 ≤ cap) := by
  constructor
  · intro h
    exact ⟨h.mono (List.prefix_append _ _), h cs c (List.prefix_refl _)⟩
  · rintro ⟨h, hc⟩ pre d hpre hd
    rcases List.prefix_concat_iff.mp hpre with he | hpre
    · obtain ⟨rfl, hdc⟩ := List.append_inj' he rfl
      obtain rfl := List.singleton_inj.mp hdc
      exact hc hd
    · exact h pre d hpre hd

/-- What is left on the stack had room when it was read, above what is left below it. -/
theorem FitsThroughout.reduced {cap : ℕ} {cs : List Text} (h : FitsThroughout cap cs) :
    FitsThroughout cap (reduce here up cs) := by
  induction cs using List.reverseRecOn with
  | nil => exact h
  | append_singleton cs c ih =>
    obtain ⟨hcs, hc⟩ := fitsThroughout_concat.mp h
    have hself : reduce here up (reduce here up cs) = reduce here up cs :=
      reduce_eq_self fun _ hd => (reduce_ordinary hd).2
    rw [reduce_concat, reduceStep]
    split_ifs with hhere hup
    · exact ih hcs
    · exact (ih hcs).mono (List.dropLast_prefix _)
    · refine fitsThroughout_concat.mpr ⟨ih hcs, fun _ => ?_⟩
      rw [hself]
      exact hc ⟨hhere, hup⟩

/-- A stack fits where its first component has room for a separator it does not need. -/
theorem fitsThroughout_of_head {cap : ℕ} {cs : List Text} (hcs : Stack '/' here up cs)
    (hlen : (joined '/' cs).length < cap)
    (hhead : ∀ c, cs.head? = some c → c.length + 2 ≤ cap) : FitsThroughout cap cs := by
  induction cs using List.reverseRecOn with
  | nil => exact fitsThroughout_nil cap
  | append_singleton cs c ih =>
    have hcs' : Stack '/' here up cs := fun d hd => hcs d (by simp [hd])
    by_cases hnil : cs = []
    · subst hnil
      refine fitsThroughout_concat.mpr ⟨fitsThroughout_nil cap, fun _ => ?_⟩
      simpa using hhead c (by simp)
    · rw [joined_concat c hnil, List.length_append, List.length_cons] at hlen
      have hfit := ih hcs' (by omega) fun d hd => hhead d (by
        rw [List.head?_append_of_ne_nil _ hnil]
        exact hd)
      refine fitsThroughout_concat.mpr ⟨hfit, fun _ => ?_⟩
      rw [reduce_eq_self fun d hd => (hcs' d hd).2]
      omega

/-! ## The scan reads the components over the stack -/

theorem dropComponent_joined {cs : List Text} (h : ∀ c ∈ cs, Component '/' c) :
    dropComponent (joined '/' cs) = joined '/' cs.dropLast :=
  rdropWhile_joined h

theorem addComponent_joined {cs : List Text} (h : ∀ c ∈ cs, Component '/' c) (c : Text) :
    addComponent (joined '/' cs) c = joined '/' (cs ++ [c]) := by
  by_cases hcs : cs = []
  · subst hcs
    simp [addComponent]
  · rw [addComponent, if_neg (by simpa [joined_eq_nil_iff h] using hcs), joined_concat c hcs]
    simp

/-- **The scan reads the components over the stack**: started with the stack of `cs`, it ends
with the stack of `cs` and the components of `p`, or is refused where one does not fit. -/
theorem normaliseLoop_eq (cap : ℕ) (cs : List Text) (fuel : ℕ) (p : Text)
    (hcs : ∀ c ∈ cs, Component '/' c) (hfit : FitsThroughout cap cs) (hfuel : p.length ≤ fuel) :
    (FitsThroughout cap (cs ++ segments '/' p) →
      normaliseLoop cap fuel p (joined '/' (reduce here up cs)) =
        .ok (joined '/' (reduce here up (cs ++ segments '/' p)))) ∧
    (¬ FitsThroughout cap (cs ++ segments '/' p) →
      normaliseLoop cap fuel p (joined '/' (reduce here up cs)) = .error .enametoolong) := by
  -- Induction on the fuel, for every stack of components read so far.
  induction fuel generalizing cs p with
  | zero =>
    obtain rfl : p = [] := List.eq_nil_of_length_eq_zero (by omega)
    simp [normaliseLoop, hfit]
  | succ fuel ih =>
    by_cases hp : p.dropWhile (· = '/') = []
    · have hseg : segments '/' p = [] := by rw [← segments_dropWhile, hp, segments_nil]
      simp [normaliseLoop, hp, hseg, hfit]
    obtain ⟨hs, hseg⟩ := segments_scan hp
    have hstack : Stack '/' here up (reduce here up cs) := stack_reduce hcs
    simp only [normaliseLoop, if_neg hp]
    rw [hseg]
    -- what is left to read is shorter
    have hlen : ((p.dropWhile (· = '/')).dropWhile (· ≠ '/')).length ≤ fuel := by
      have h₁ : (p.dropWhile (· = '/')).length ≤ p.length := (List.dropWhile_suffix _).length_le
      have h₂ := congrArg List.length
        (List.takeWhile_append_dropWhile (p := (· ≠ '/')) (l := p.dropWhile (· = '/')))
      have h₃ := List.length_pos_iff.mpr hs.1
      rw [List.length_append] at h₂
      omega
    generalize (p.dropWhile (· = '/')).takeWhile (· ≠ '/') = s at hs ⊢
    generalize (p.dropWhile (· = '/')).dropWhile (· ≠ '/') = p' at hlen ⊢
    have hcs' : ∀ c ∈ cs ++ [s], Component '/' c := by
      intro c hc
      rcases List.mem_append.mp hc with hc | hc
      · exact hcs c hc
      · rwa [List.mem_singleton.mp hc]
    have happ : cs ++ s :: segments '/' p' = (cs ++ [s]) ++ segments '/' p' := by simp
    have hred : reduce here up (cs ++ [s]) = reduceStep here up (reduce here up cs) s :=
      reduce_concat cs s
    rw [happ]
    unfold reduceStep at hred
    split_ifs with h₁ h₂ h₃
    · -- `.` is skipped
      rw [if_pos h₁] at hred
      rw [← hred]
      exact ih (cs ++ [s]) p' hcs'
        (fitsThroughout_concat.mpr ⟨hfit, fun ho => absurd h₁ ho.1⟩) hlen
    · -- `..` drops the last component kept
      rw [if_neg h₁, if_pos h₂] at hred
      rw [dropComponent_joined hstack.component, ← hred]
      exact ih (cs ++ [s]) p' hcs'
        (fitsThroughout_concat.mpr ⟨hfit, fun ho => absurd h₂ ho.2⟩) hlen
    · -- no room for the component
      refine ⟨fun h => ?_, fun _ => rfl⟩
      have := (fitsThroughout_concat.mp (h.mono (List.prefix_append _ _))).2 ⟨h₁, h₂⟩
      omega
    · -- any other component is kept
      rw [if_neg h₁, if_neg h₂] at hred
      rw [addComponent_joined hstack.component, ← hred]
      exact ih (cs ++ [s]) p' hcs'
        (fitsThroughout_concat.mpr ⟨hfit, fun _ => by omega⟩) hlen

/-- `normalise` returns the lexical reduction when every component kept has room. -/
theorem normalise_of_fits {input : Text} {cap : ℕ}
    (h : FitsThroughout cap (segments '/' input)) :
    normalise input cap = .ok (lexicalReduction input) := by
  have := (normaliseLoop_eq cap [] input.length input (by simp) (fitsThroughout_nil cap) le_rfl).1
  simpa [normalise, lexicalReduction, reducedStack] using this (by simpa using h)

/-- `normalise` refuses a name where a component has no room. -/
theorem normalise_of_not_fits {input : Text} {cap : ℕ}
    (h : ¬ FitsThroughout cap (segments '/' input)) :
    normalise input cap = .error .enametoolong := by
  have := (normaliseLoop_eq cap [] input.length input (by simp) (fitsThroughout_nil cap) le_rfl).2
  simpa [normalise] using this (by simpa using h)

theorem normalise_eq_ok_iff {input out : Text} {cap : ℕ} :
    normalise input cap = .ok out ↔
      FitsThroughout cap (segments '/' input) ∧ out = lexicalReduction input := by
  by_cases h : FitsThroughout cap (segments '/' input)
  · rw [normalise_of_fits h]
    simp [h, eq_comm]
  · rw [normalise_of_not_fits h]
    simp [h]

theorem normalise_eq_error_iff {input : Text} {cap : ℕ} {e : Errno} :
    normalise input cap = .error e ↔
      ¬ FitsThroughout cap (segments '/' input) ∧ e = .enametoolong := by
  by_cases h : FitsThroughout cap (segments '/' input)
  · rw [normalise_of_fits h]
    simp [h]
  · rw [normalise_of_not_fits h]
    simp [h, eq_comm]

/-- Every name on the way fits: the joined stack and its terminating zero. -/
theorem FitsThroughout.length_lt {cap : ℕ} (hcap : 0 < cap) {cs : List Text}
    (h : FitsThroughout cap cs) : (joined '/' (reduce here up cs)).length < cap := by
  induction cs using List.reverseRecOn with
  | nil => simpa using hcap
  | append_singleton cs c ih =>
    obtain ⟨hcs, hc⟩ := fitsThroughout_concat.mp h
    have hlt := ih hcs
    rw [reduce_concat, reduceStep]
    split_ifs with h₁ h₂
    · exact hlt
    · -- a pop leaves less than was there
      refine lt_of_le_of_lt ?_ hlt
      rcases List.eq_nil_or_concat (reduce here up cs) with he | ⟨ds, d, he⟩
      · simp [he]
      · rw [he, List.concat_eq_append, List.dropLast_concat]
        by_cases hds : ds = []
        · simp [hds]
        · rw [joined_concat d hds]
          simp
    · -- a component kept had room with a separator and the zero
      have := hc ⟨h₁, h₂⟩
      by_cases hds : reduce here up cs = []
      · rw [hds] at this ⊢
        simp at this ⊢
        omega
      · rw [joined_concat c hds]
        simp only [List.length_append, List.length_cons]
        omega

/-- The result and its terminating zero fit the buffer. -/
theorem length_lt_of_normalise {input out : Text} {cap : ℕ} (hcap : 0 < cap)
    (h : normalise input cap = .ok out) : out.length < cap := by
  obtain ⟨hfit, rfl⟩ := normalise_eq_ok_iff.mp h
  exact hfit.length_lt hcap

example : normalise ['a', '/', '.', '/', 'b', '/', '/', '.', '.', '/', 'c'] 16 =
    .ok ['a', '/', 'c'] := by decide

end OpenkalMusl
