import Mathlib.Logic.Function.Basic
import OpenkalMusl.Port.Basic

/-!
# The table of children

`g_child` of `okm_syscall.c`: an entry for each program that was started and not waited for. A
`fork` takes its entry before the program exists and fills it afterwards; a spawn takes and fills
one for a program that runs already. The identifier is the environment's where the environment says
it, and otherwise one of a counter's.

## Main definitions

* `ChildEntry`, `Children`: the table and the counter
* `Children.reserve`, `commit`, `childJob`, `release`, `recordJob`, `forgetChildren`:
  the source's functions
* `Children.Full`: every entry is in use

## Main results

* `reserve_eq_none_iff`, `reserve_some`: an entry is found exactly where one is free
-/

namespace OpenkalMusl

def okmMaxChild : ℕ := 256

/-- An entry of `g_child`. -/
structure ChildEntry where
  used : Bool
  pid : Int
  h : Handle
  job : Handle
  hasJob : Bool
  deriving DecidableEq

/-- The table, and `g_next_pid`. -/
structure Children where
  entry : ℕ → ChildEntry
  nextPid : Int

namespace Children

/-- A program that has started no other. -/
def empty : Children := ⟨fun _ => ⟨false, 0, 0, 0, false⟩, 1000⟩

def set (t : Children) (i : ℕ) (e : ChildEntry) : Children :=
  { t with entry := Function.update t.entry i e }

/-- `__okm_child_reserve`: the first entry that is free, with an identifier of the counter's. -/
def reserve (t : Children) : Option (ℕ × Children) :=
  ((List.range okmMaxChild).find? fun i => ¬ (t.entry i).used).map fun i =>
    (i, { t.set i ⟨true, t.nextPid + 1, 0, 0, false⟩ with nextPid := t.nextPid + 1 })

/-- `__okm_child_commit`, where the environment says `id` of the program's identifier. -/
def commit (t : Children) (id : Option Int) (i : ℕ) (h : Handle) : Children :=
  t.set i { t.entry i with h := h, pid := id.getD (t.entry i).pid }

/-- `__okm_child_job`. -/
def childJob (t : Children) (i : ℕ) (j : Handle) : Children :=
  if j ≠ 0 then t.set i { t.entry i with job := j, hasJob := true } else t

/-- `__okm_child_release`: the identifier and its unit stay until the entry is taken again. -/
def release (t : Children) (i : ℕ) : Children := t.set i { t.entry i with used := false }

/-- `__okm_child_record_job`. -/
def recordJob (t : Children) (id : Option Int) (h j : Handle) : Option (Int × Children) :=
  t.reserve.map fun r =>
    let u := (r.2.commit id r.1 h).childJob r.1 j
    ((u.entry r.1).pid, u)

/-- `__okm_forget_children`; an index from `okmMaxChild` on names no entry. -/
def forgetChildren (t : Children) : Children :=
  { t with entry := fun i => { t.entry i with used := false } }

/-- Every entry is in use. -/
def Full (t : Children) : Prop := ∀ i < okmMaxChild, (t.entry i).used = true

instance (t : Children) : Decidable t.Full :=
  inferInstanceAs (Decidable (∀ i < okmMaxChild, (t.entry i).used = true))

theorem reserve_eq_none_iff {t : Children} : t.reserve = none ↔ t.Full := by
  unfold reserve
  rw [Option.map_eq_none_iff, List.find?_eq_none]
  simp [Full]

theorem recordJob_eq_none_iff {t : Children} {id : Option Int} {h j : Handle} :
    t.recordJob id h j = none ↔ t.Full := by
  unfold recordJob
  rw [Option.map_eq_none_iff, reserve_eq_none_iff]

/-- What is reserved was free, and no entry before it was. -/
theorem reserve_some {t u : Children} {i : ℕ} (h : t.reserve = some (i, u)) :
    i < okmMaxChild ∧ (t.entry i).used = false ∧ (∀ k < i, (t.entry k).used = true) ∧
      u = { t.set i ⟨true, t.nextPid + 1, 0, 0, false⟩ with nextPid := t.nextPid + 1 } := by
  unfold reserve at h
  obtain ⟨k, hk, hku⟩ := Option.map_eq_some_iff.mp h
  simp only [Prod.mk.injEq] at hku
  obtain ⟨rfl, rfl⟩ := hku
  rw [List.find?_range_eq_some] at hk
  obtain ⟨hused, hlt, hbefore⟩ := hk
  refine ⟨by simpa using hlt, by simpa using hused, fun x hx => ?_, rfl⟩
  simpa using hbefore x hx

end Children

end OpenkalMusl
