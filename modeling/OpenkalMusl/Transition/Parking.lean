import Mathlib.Algebra.BigOperators.Group.Finset.Basic
import Mathlib.Algebra.Order.BigOperators.Group.Finset
import Mathlib.Data.Fintype.Pi
import OpenkalMusl.Transition.Run

/-!
# Contexts that sleep on words and wake each other

Finitely many contexts share a state and are each at some point of a protocol. A context that is
not asleep takes one atomic step on the shared state; one that is about to wake others releases one
sleeper, or every sleeper, of one word. Which sleeper a wake releases is the environment's choice,
and a wake of one that finds a sleeper releases one. A sleeper that returns by itself takes a step
like any other.

What an invariant of such a protocol says is mostly how many contexts are where, so the rules here
are about totals over the contexts.

## Main definitions

* `Parking`: a protocol; `Parked`: its contexts and what they share
* `Parking.step`: one step of one context, or one wake
* `Parked.total f s`: the sum of `f` over where the contexts are

## Main results

* `Parking.step_cases`: what a step is
* `Parking.invariant`: what an act and a wake keep holds in every reachable state
* `Parked.total_put`: one context moves
-/

namespace Transition

/-- A wake of the sleepers of one word, of one of them or of all. -/
structure Wake (κ : Type*) where
  word : κ
  all : Bool
  deriving DecidableEq

/-- What the contexts of a protocol do. -/
structure Parking (C W P A κ : Type*) where
  /-- One atomic step: the shared state after it, and where the context goes. -/
  act : C → W → P → A → Option (W × P)
  /-- The word a context sleeps on. -/
  sleepsOn : C → P → Option κ
  /-- Where a wake leaves a sleeper. -/
  released : P → P
  /-- The wake a context is about to make, and where it goes afterwards. -/
  wakes : P → Option (Wake κ × P)

/-- The contexts of a protocol, and what they share. -/
@[ext]
structure Parked (C W P : Type*) where
  shared : W
  at_ : C → P

/-- A step of `c`, or the wake it makes, with the sleeper that is released where one is chosen. -/
inductive ParkMove (C A : Type*) where
  | act (c : C) (a : A)
  | wake (c : C) (x : Option C)

namespace Parked

variable {C W P : Type*}

section Write

variable [DecidableEq C]

/-- The context `c` writes `w` and goes to `p`. -/
def put (s : Parked C W P) (c : C) (w : W × P) : Parked C W P :=
  ⟨w.1, Function.update s.at_ c w.2⟩

def goto (s : Parked C W P) (c : C) (p : P) : Parked C W P := s.put c (s.shared, p)

@[simp] theorem put_shared (s : Parked C W P) (c : C) (w : W × P) : (s.put c w).shared = w.1 := rfl

@[simp] theorem goto_shared (s : Parked C W P) (c : C) (p : P) :
    (s.goto c p).shared = s.shared := rfl

@[simp] theorem put_at_self (s : Parked C W P) (c : C) (w : W × P) : (s.put c w).at_ c = w.2 :=
  Function.update_self ..

theorem put_at_of_ne (s : Parked C W P) {c x : C} (h : x ≠ c) (w : W × P) :
    (s.put c w).at_ x = s.at_ x := Function.update_of_ne h ..

@[simp] theorem goto_at_self (s : Parked C W P) (c : C) (p : P) : (s.goto c p).at_ c = p :=
  Function.update_self ..

theorem goto_at_of_ne (s : Parked C W P) {c x : C} (h : x ≠ c) (p : P) :
    (s.goto c p).at_ x = s.at_ x := Function.update_of_ne h ..

end Write

/-- Every context that sleeps on `k` is released. -/
def releaseAll {κ : Type*} [DecidableEq κ] (sleepsOn : C → P → Option κ) (released : P → P)
    (k : κ) (s : Parked C W P) : Parked C W P :=
  ⟨s.shared, fun x => if sleepsOn x (s.at_ x) = some k then released (s.at_ x) else s.at_ x⟩

/-! ## Totals -/

section Total

variable [Fintype C]

/-- The sum of `f` over where the contexts are. -/
def total (f : P → ℕ) (s : Parked C W P) : ℕ := ∑ c, f (s.at_ c)

variable (f : P → ℕ) (s : Parked C W P)

/-- **One context moves.** -/
theorem total_put [DecidableEq C] (c : C) (w : W × P) :
    (s.put c w).total f + f (s.at_ c) = s.total f + f w.2 := by
  unfold total
  rw [← Finset.add_sum_erase _ _ (Finset.mem_univ c),
    ← Finset.add_sum_erase Finset.univ (fun x => f (s.at_ x)) (Finset.mem_univ c)]
  -- the others are where they were
  have hrest : ∀ x ∈ Finset.univ.erase c, f ((s.put c w).at_ x) = f (s.at_ x) := by
    intro x hx
    rw [put_at_of_ne s (Finset.ne_of_mem_erase hx)]
  rw [Finset.sum_congr rfl hrest, put_at_self]
  omega

theorem total_goto [DecidableEq C] (c : C) (p : P) :
    (s.goto c p).total f + f (s.at_ c) = s.total f + f p :=
  s.total_put f c (s.shared, p)

variable {f s}

theorem le_total (c : C) : f (s.at_ c) ≤ s.total f :=
  Finset.single_le_sum (f := fun x => f (s.at_ x)) (fun _ _ => Nat.zero_le _) (Finset.mem_univ c)

/-- Two contexts are among those that are counted. -/
theorem add_le_total [DecidableEq C] {c d : C} (h : c ≠ d) :
    f (s.at_ c) + f (s.at_ d) ≤ s.total f := by
  have hpair : ({c, d} : Finset C) ⊆ Finset.univ := Finset.subset_univ _
  have hsum := Finset.sum_le_sum_of_subset (f := fun x => f (s.at_ x)) hpair
  rwa [Finset.sum_pair h] at hsum

theorem total_eq_zero : s.total f = 0 ↔ ∀ c, f (s.at_ c) = 0 := by
  unfold total
  rw [Finset.sum_eq_zero_iff]
  simp

theorem exists_of_total_pos (h : 0 < s.total f) : ∃ c, 0 < f (s.at_ c) := by
  by_contra hno
  push Not at hno
  exact absurd (total_eq_zero.mpr fun c => Nat.le_zero.mp (hno c)) (Nat.pos_iff_ne_zero.mp h)

theorem total_congr {t : Parked C W P} (h : ∀ c, f (t.at_ c) = f (s.at_ c)) :
    t.total f = s.total f := Finset.sum_congr rfl fun c _ => h c

end Total

end Parked

namespace Parking

variable {C W P A κ : Type*} [DecidableEq C] [Fintype C] [DecidableEq κ]

/-- One step of one context, or one wake. -/
def step (M : Parking C W P A κ) (s : Parked C W P) : ParkMove C A → Option (Parked C W P)
  | .act c a => (M.act c s.shared (s.at_ c) a).map (s.put c)
  | .wake c x =>
    match M.wakes (s.at_ c), x with
    | some (⟨k, true⟩, p), none => some ((s.releaseAll M.sleepsOn M.released k).goto c p)
    | some (⟨k, false⟩, p), none =>
      -- a wake of one finds nobody only where nobody sleeps
      if ∀ y, M.sleepsOn y (s.at_ y) ≠ some k then some (s.goto c p) else none
    | some (⟨k, false⟩, p), some y =>
      if M.sleepsOn y (s.at_ y) = some k ∧ y ≠ c then
        some ((s.goto y (M.released (s.at_ y))).goto c p)
      else none
    | _, _ => none

/-- What a step is. -/
inductive Stepped (M : Parking C W P A κ) (s : Parked C W P) : Parked C W P → Prop where
  | act (c : C) (a : A) {w : W × P} (h : M.act c s.shared (s.at_ c) a = some w) :
      Stepped M s (s.put c w)
  /-- A wake that finds nobody asleep. -/
  | wakeNone (c : C) {k : κ} {p : P} (h : M.wakes (s.at_ c) = some (⟨k, false⟩, p))
      (hnone : ∀ y, M.sleepsOn y (s.at_ y) ≠ some k) : Stepped M s (s.goto c p)
  | wakeOne (c y : C) {k : κ} {p : P} (h : M.wakes (s.at_ c) = some (⟨k, false⟩, p))
      (hy : M.sleepsOn y (s.at_ y) = some k) (hne : y ≠ c) :
      Stepped M s ((s.goto y (M.released (s.at_ y))).goto c p)
  | wakeAll (c : C) {k : κ} {p : P} (h : M.wakes (s.at_ c) = some (⟨k, true⟩, p)) :
      Stepped M s ((s.releaseAll M.sleepsOn M.released k).goto c p)

variable {M : Parking C W P A κ} {s t : Parked C W P}

/-- **What a step is**: an act of one context, or a wake. -/
theorem step_cases {l : ParkMove C A} (h : M.step s l = some t) : M.Stepped s t := by
  cases l with
  | act c a =>
    obtain ⟨w, hw, rfl⟩ := Option.map_eq_some_iff.mp h
    exact .act c a hw
  | wake c x =>
    rcases hwakes : M.wakes (s.at_ c) with - | ⟨⟨k, all⟩, p⟩
    · simp [step, hwakes] at h
    · cases all <;> cases x <;>
        simp only [step, hwakes, Option.ite_none_right_eq_some, Option.some.injEq,
          reduceCtorEq] at h
      · exact h.2 ▸ .wakeNone c hwakes h.1
      · exact h.2 ▸ .wakeOne c _ hwakes h.1.1 h.1.2
      · exact h ▸ .wakeAll c hwakes

/-- **The invariant rule.** -/
theorem invariant {s₀ : Parked C W P} {I : Parked C W P → Prop} (h₀ : I s₀)
    (hstep : ∀ s t, I s → M.Stepped s t → I t) (h : Reachable M.step s₀ t) : I t :=
  h.invariant h₀ fun u _ v hu hv => hstep u v hu (step_cases hv)

end Parking

end Transition
