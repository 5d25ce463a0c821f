import Mathlib.Data.Fintype.Card
import Mathlib.Logic.Function.Basic

/-!
# Open addressing with retired entries

A table of keys in which each key has a probe sequence, and two keys are words of the table's own:
one for an entry that is vacant and one for an entry that was given up. A probe for a key stops at a
vacant entry, so that the table is of use only while every key lies on its own probe before the
first vacant entry. Giving an entry up leaves the word that a probe passes; an entry taken is the
first that the probe of its key finds vacant or given up.

## Main definitions

* `Scheme`: the probe sequences and the two words
* `Scheme.Sound`: no key twice, and every key before the first vacant entry of its probe

## Main results

* `Sound.retire`, `Sound.take`: giving up and taking an entry
* `Sound.absent`: a key that a probe has not met by the first vacant entry is nowhere
* `Sound.exists_not_live`: where the keys are fewer than the entries, one can be taken
-/

namespace Probing

/-- The probe sequences of the keys `κ` over the entries `ι`, and the words for an entry that is
vacant and for one that was given up. -/
structure Scheme (ι κ : Type*) where
  probe : κ → ℕ → ι
  bound : ℕ
  vacant : κ
  retired : κ
  vacant_ne_retired : vacant ≠ retired
  covers : ∀ k i, ∃ n < bound, probe k n = i

namespace Scheme

variable {ι κ : Type*} (S : Scheme ι κ)

/-- A key that is neither of the table's own words. -/
def IsLive (k : κ) : Prop := k ≠ S.vacant ∧ k ≠ S.retired

/-- The first `n` entries of the probe of `k` are passed: none is vacant. -/
def Passed (keys : ι → κ) (k : κ) (n : ℕ) : Prop := ∀ m < n, keys (S.probe k m) ≠ S.vacant

/-- No key occurs twice, and each lies on its own probe before the first vacant entry. -/
structure Sound (keys : ι → κ) : Prop where
  unique : ∀ i j, S.IsLive (keys i) → keys i = keys j → i = j
  reach : ∀ i, S.IsLive (keys i) → ∃ n < S.bound, S.probe (keys i) n = i ∧ S.Passed keys (keys i) n

variable {S} {keys : ι → κ} {k : κ} {i : ι}

theorem sound_vacant : S.Sound fun _ => S.vacant where
  unique _ _ h := absurd rfl h.1
  reach _ h := absurd rfl h.1

/-- An entry that is no longer vacant is passed as the others are. -/
theorem Passed.update [DecidableEq ι] {n : ℕ} (h : S.Passed keys k n) {k' : κ}
    (hk' : k' ≠ S.vacant) : S.Passed (Function.update keys i k') k n := by
  intro m hm
  by_cases hi : S.probe k m = i
  · rw [hi, Function.update_self]
    exact hk'
  · rw [Function.update_of_ne hi]
    exact h m hm

/-- **Giving an entry up** keeps every other key in reach. -/
theorem Sound.retire [DecidableEq ι] (h : S.Sound keys) (i : ι) :
    S.Sound (Function.update keys i S.retired) where
  unique := by
    intro a b ha hab
    by_cases hai : a = i
    · rw [hai, Function.update_self] at ha
      exact absurd rfl ha.2
    · rw [Function.update_of_ne hai] at ha hab
      by_cases hbi : b = i
      · rw [hbi, Function.update_self] at hab
        exact absurd hab ha.2
      · rw [Function.update_of_ne hbi] at hab
        exact h.unique a b ha hab
  reach := by
    intro a ha
    by_cases hai : a = i
    · rw [hai, Function.update_self] at ha
      exact absurd rfl ha.2
    · rw [Function.update_of_ne hai] at ha ⊢
      obtain ⟨n, hn, hprobe, hpass⟩ := h.reach a ha
      exact ⟨n, hn, hprobe, hpass.update S.vacant_ne_retired.symm⟩

/-- **Taking an entry** that the probe of a new key comes to before any vacant one. -/
theorem Sound.take [DecidableEq ι] (h : S.Sound keys) (hk : S.IsLive k) (hnew : ∀ j, keys j ≠ k)
    {n : ℕ} (hn : n < S.bound) (hpass : S.Passed keys k n) :
    S.Sound (Function.update keys (S.probe k n) k) where
  unique := by
    intro a b ha hab
    by_cases hai : a = S.probe k n
    · subst hai
      rw [Function.update_self] at hab
      by_contra hne
      rw [Function.update_of_ne (Ne.symm hne)] at hab
      exact hnew b hab.symm
    · rw [Function.update_of_ne hai] at ha hab
      by_cases hbi : b = S.probe k n
      · rw [hbi, Function.update_self] at hab
        exact absurd hab (hnew a)
      · rw [Function.update_of_ne hbi] at hab
        exact h.unique a b ha hab
  reach := by
    intro a ha
    by_cases hai : a = S.probe k n
    · subst hai
      rw [Function.update_self]
      exact ⟨n, hn, rfl, hpass.update hk.1⟩
    · rw [Function.update_of_ne hai] at ha ⊢
      obtain ⟨m, hm, hprobe, hpass'⟩ := h.reach a ha
      exact ⟨m, hm, hprobe, hpass'.update hk.1⟩

/-- **A key that its probe has not met** by a vacant entry, or by the end, is nowhere. -/
theorem Sound.absent (h : S.Sound keys) (hk : S.IsLive k) {n : ℕ}
    (hmiss : ∀ m < n, keys (S.probe k m) ≠ k)
    (hend : S.bound ≤ n ∨ keys (S.probe k n) = S.vacant) : ∀ i, keys i ≠ k := by
  intro i hi
  subst hi
  obtain ⟨m, hm, hprobe, hpass⟩ := h.reach i hk
  -- the key's own entry is not among those passed, so the vacant one lies before it
  have hnm : n ≤ m := by
    by_contra hlt
    exact hmiss m (Nat.lt_of_not_le hlt) (by rw [hprobe])
  rcases hend with hend | hend
  · omega
  · rcases Nat.lt_or_eq_of_le hnm with hlt | heq
    · exact hpass n hlt hend
    · rw [heq, hprobe] at hend
      exact hk.1 hend

/-- Where the keys are fewer than the entries, an entry holds none. -/
theorem Sound.exists_not_live [Fintype ι] (h : S.Sound keys) {α : Type*} {s : Finset α}
    (name : ι → α) (hname : ∀ i, S.IsLive (keys i) → name i ∈ s)
    (hinj : ∀ i j, S.IsLive (keys i) → S.IsLive (keys j) → name i = name j → keys i = keys j)
    (hcard : s.card < Fintype.card ι) : ∃ i, ¬ S.IsLive (keys i) := by
  by_contra hall
  simp only [not_exists, not_not] at hall
  have hle : (Finset.univ : Finset ι).card ≤ s.card := by
    refine Finset.card_le_card_of_injOn name (fun i _ => hname i (hall i)) ?_
    intro i _ j _ hij
    exact h.unique i j (hall i) (hinj i j (hall i) (hall j) hij)
  rw [Finset.card_univ] at hle
  omega

end Scheme

end Probing
