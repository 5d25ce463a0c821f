import Mathlib.Algebra.BigOperators.Ring.Finset
import Mathlib.Data.Fintype.Card

/-!
# Occupancy of a finite table

A finite table of slots, each empty or naming one of finitely many objects. The occupancy of an
object is the number of slots that name it, which is what a reference count is meant to hold.

## Main definitions

* `occ g k`: the number of slots of `g` that name `k`
* `vacant g`: the number of empty slots of `g`

## Main results

* `occ_update`, `vacant_update`: writing one slot moves one unit of occupancy
* `occ_pos`, `occ_eq_zero_iff`: an object is named by a slot, or by none
* `exists_occ_eq_zero`: where a slot is empty and there are as many objects as slots, some object
  is named by none
-/

namespace Occupancy

variable {ι κ : Type*} [Fintype ι] [DecidableEq κ]

/-- The number of slots that name `k`. -/
def occ (g : ι → Option κ) (k : κ) : ℕ := (Finset.univ.filter fun i => g i = some k).card

/-- The number of empty slots. -/
def vacant (g : ι → Option κ) : ℕ := (Finset.univ.filter fun i => g i = none).card

/-- Writing one slot moves one unit of the number of slots that hold a given content. -/
theorem card_update [DecidableEq ι] {β : Type*} [DecidableEq β] (g : ι → β) (i : ι) (o b : β) :
    (Finset.univ.filter fun j => Function.update g i o j = b).card + (if g i = b then 1 else 0) =
      (Finset.univ.filter fun j => g j = b).card + (if o = b then 1 else 0) := by
  rw [Finset.card_filter, Finset.card_filter, ← Finset.add_sum_erase _ _ (Finset.mem_univ i),
    ← Finset.add_sum_erase Finset.univ (fun j => if g j = b then 1 else 0) (Finset.mem_univ i)]
  -- the other slots are as they were
  have hrest : ∀ j ∈ Finset.univ.erase i,
      (if Function.update g i o j = b then 1 else 0) = if g j = b then 1 else 0 := by
    intro j hj
    rw [Function.update_of_ne (Finset.ne_of_mem_erase hj)]
  rw [Finset.sum_congr rfl hrest, Function.update_self]
  omega

theorem occ_update [DecidableEq ι] (g : ι → Option κ) (i : ι) (o : Option κ) (k : κ) :
    occ (Function.update g i o) k + (if g i = some k then 1 else 0) =
      occ g k + (if o = some k then 1 else 0) := card_update g i o (some k)

theorem vacant_update [DecidableEq ι] (g : ι → Option κ) (i : ι) (o : Option κ) :
    vacant (Function.update g i o) + (if g i = none then 1 else 0) =
      vacant g + (if o = none then 1 else 0) := card_update g i o none

theorem occ_eq_zero_iff (g : ι → Option κ) (k : κ) : occ g k = 0 ↔ ∀ i, g i ≠ some k := by
  rw [occ, Finset.card_eq_zero, Finset.filter_eq_empty_iff]
  simp

theorem occ_pos {g : ι → Option κ} {i : ι} {k : κ} (h : g i = some k) : 0 < occ g k := by
  rw [Nat.pos_iff_ne_zero, ne_eq, occ_eq_zero_iff]
  exact fun hall => hall i h

/-- **Pigeonhole**: with an empty slot, and no more slots than objects, some object is named by
no slot. -/
theorem exists_occ_eq_zero [Fintype κ] {g : ι → Option κ} {i : ι}
    (hcard : Fintype.card ι ≤ Fintype.card κ) (hi : g i = none) : ∃ k, occ g k = 0 := by
  by_contra hall
  -- otherwise every object has a slot of its own, and the empty one is left over
  have hsome : ∀ k, ∃ j, g j = some k := by
    intro k
    by_contra hk
    rw [not_exists] at hk
    exact hall ⟨k, (occ_eq_zero_iff g k).mpr hk⟩
  choose slot hslot using hsome
  have hinj : Function.Injective slot := by
    intro a b hab
    have := hslot a
    rw [hab, hslot b] at this
    exact (Option.some.inj this).symm
  have hlt : Fintype.card κ < Fintype.card ι := by
    refine Fintype.card_lt_of_injective_of_notMem slot hinj (b := i) ?_
    rintro ⟨k, rfl⟩
    rw [hslot k] at hi
    cases hi
  omega

end Occupancy
