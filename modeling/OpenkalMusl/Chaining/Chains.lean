import Mathlib.Data.List.Nodup

/-!
# Chains of indices

A chain goes from an index to the next one until it meets a word that ends it. Where it ends, the
indices on it are a list without repetition, and a walk that looks for an index with a property
ends with the first that has it.

## Main definitions

* `Leads next stop i l`: the chain from `i` is `l`, and then ends
* `walk`: the search along a chain

## Main results

* `Leads.nodup`: a chain that ends meets no index twice
* `walk_of_leads`: a walk ends, with the first index of the chain that has the property
-/

namespace Chaining

variable {ι : Type*}

/-- The chain from an index is the list, and then ends. -/
inductive Leads (next : ι → ι) (stop : ι) : ι → List ι → Prop where
  | done : Leads next stop stop []
  | step {i : ι} {l : List ι} (hi : i ≠ stop) (h : Leads next stop (next i) l) :
      Leads next stop i (i :: l)

/-- The first index of the chain from `i` on that has the property; nothing where the turns do not
suffice. -/
def walk [DecidableEq ι] (next : ι → ι) (stop : ι) (p : ι → Bool) : ℕ → ι → Option (Option ι)
  | 0, _ => none
  | n + 1, i =>
    if i = stop then some none
    else if p i then some (some i)
    else walk next stop p n (next i)

section Chain

variable {next : ι → ι} {stop i : ι} {l l' : List ι}

theorem Leads.unique (h : Leads next stop i l) (h' : Leads next stop i l') : l = l' := by
  induction h generalizing l' with
  | done =>
    cases h' with
    | done => rfl
    | step hi _ => exact absurd rfl hi
  | step hi _ ih =>
    cases h' with
    | done => exact absurd rfl hi
    | step _ h' => rw [ih h']

/-- The chain from an index on the chain is what is left of it, and no longer. -/
theorem Leads.of_mem (h : Leads next stop i l) {j : ι} (hj : j ∈ l) :
    ∃ l', Leads next stop j l' ∧ l'.length ≤ l.length := by
  induction h with
  | done => cases hj
  | step hi h ih =>
    rcases List.mem_cons.mp hj with rfl | hj
    · exact ⟨_, .step hi h, Nat.le_refl _⟩
    · obtain ⟨l', hl', hle⟩ := ih hj
      exact ⟨l', hl', Nat.le_trans hle (Nat.le_succ _)⟩

/-- **A chain that ends meets no index twice.** -/
theorem Leads.nodup (h : Leads next stop i l) : l.Nodup := by
  induction h with
  | done => exact List.nodup_nil
  | step hi h ih =>
    refine List.nodup_cons.mpr ⟨fun hmem => ?_, ih⟩
    -- the chain from the index would be shorter than itself
    obtain ⟨l', hl', hle⟩ := h.of_mem hmem
    have hlen := congrArg List.length (hl'.unique (.step hi h))
    rw [List.length_cons] at hlen
    omega

/-- **A walk ends** with the first index of the chain that has the property, within a turn for each
index and one for the end. -/
theorem walk_of_leads [DecidableEq ι] (h : Leads next stop i l) (p : ι → Bool) {n : ℕ}
    (hn : l.length < n) : walk next stop p n i = some (l.find? p) := by
  induction h generalizing n with
  | done =>
    obtain ⟨n, rfl⟩ := Nat.exists_eq_succ_of_ne_zero (Nat.ne_of_gt (Nat.zero_lt_of_lt hn))
    exact if_pos rfl
  | @step i l hi h ih =>
    obtain ⟨n, rfl⟩ := Nat.exists_eq_succ_of_ne_zero (Nat.ne_of_gt (Nat.zero_lt_of_lt hn))
    unfold walk
    rw [if_neg hi]
    cases hp : p i with
    | true => simp [hp]
    | false =>
      simp only [Bool.false_eq_true, if_false, List.find?_cons, hp]
      exact ih (Nat.lt_of_succ_lt_succ hn)

end Chain

end Chaining
