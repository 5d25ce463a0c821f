import Mathlib.Data.List.Basic

/-!
# Runs of a labelled transition function

A system is a partial step function `step : σ → ι → Option σ`: the label says which party
moves and how, and the step is undefined where that move is not enabled. A run is a list of
labels taken in order. An invariant is proved of one step and holds along every run; a run
whose steps all meet a guard is a run of the restricted step function.

## Main definitions

* `run step s ls`: the state after the labels `ls`, when each was enabled
* `Reachable step s t`: some run leads from `s` to `t`
* `restrict step g`: the steps of `step` that meet the guard `g`

## Main results

* `Reachable.invariant`: what every step keeps holds in every reachable state
* `restrict_eq_some`, `Reachable.of_restrict`: a guarded run is a run
-/

namespace Transition

variable {σ ι : Type*}

/-- The state after the labels `ls` taken in order, when each was enabled where it was taken. -/
def run (step : σ → ι → Option σ) : σ → List ι → Option σ
  | s, [] => some s
  | s, l :: ls => (step s l).bind fun t => run step t ls

@[simp] theorem run_nil (step : σ → ι → Option σ) (s : σ) : run step s [] = some s := rfl

theorem run_cons {step : σ → ι → Option σ} {s t : σ} {l : ι} {ls : List ι} :
    run step s (l :: ls) = some t ↔ ∃ u, step s l = some u ∧ run step u ls = some t := by
  simp [run, Option.bind_eq_some_iff]

theorem run_append {step : σ → ι → Option σ} {s t : σ} {ls ms : List ι} :
    run step s (ls ++ ms) = some t ↔ ∃ u, run step s ls = some u ∧ run step u ms = some t := by
  induction ls generalizing s with
  | nil => simp
  | cons l ls ih =>
    rw [List.cons_append, run_cons]
    constructor
    · rintro ⟨u, hu, h⟩
      obtain ⟨v, hv, hv'⟩ := ih.mp h
      exact ⟨v, run_cons.mpr ⟨u, hu, hv⟩, hv'⟩
    · rintro ⟨v, hv, hv'⟩
      obtain ⟨u, hu, h⟩ := run_cons.mp hv
      exact ⟨u, hu, ih.mpr ⟨v, h, hv'⟩⟩

/-- What is observed of the state a run leads to. -/
theorem observe {step : σ → ι → Option σ} {s t : σ} {ls : List ι} (h : run step s ls = some t)
    {β : Type*} (f : σ → β) {b : β} (hb : (run step s ls).map f = some b) : f t = b := by
  rw [h] at hb
  exact Option.some.inj hb

/-- Some run leads from `s` to `t`. -/
def Reachable (step : σ → ι → Option σ) (s t : σ) : Prop := ∃ ls, run step s ls = some t

theorem Reachable.refl (step : σ → ι → Option σ) (s : σ) : Reachable step s s := ⟨[], rfl⟩

theorem Reachable.trans {step : σ → ι → Option σ} {s t u : σ} (h : Reachable step s t)
    (h' : Reachable step t u) : Reachable step s u := by
  obtain ⟨ls, hls⟩ := h
  obtain ⟨ms, hms⟩ := h'
  exact ⟨ls ++ ms, run_append.mpr ⟨t, hls, hms⟩⟩

theorem Reachable.tail {step : σ → ι → Option σ} {s t u : σ} (h : Reachable step s t) (l : ι)
    (hl : step t l = some u) : Reachable step s u := by
  obtain ⟨ls, hls⟩ := h
  exact ⟨ls ++ [l], run_append.mpr ⟨t, hls, run_cons.mpr ⟨u, hl, rfl⟩⟩⟩

/-- **The invariant rule**: what holds at the start and is kept by every step holds in every
reachable state. -/
theorem Reachable.invariant {step : σ → ι → Option σ} {s t : σ} {I : σ → Prop} (h₀ : I s)
    (hstep : ∀ u l v, I u → step u l = some v → I v) (h : Reachable step s t) : I t := by
  obtain ⟨ls, hls⟩ := h
  induction ls generalizing s with
  | nil =>
    cases hls
    exact h₀
  | cons l ls ih =>
    obtain ⟨u, hu, hrun⟩ := run_cons.mp hls
    exact ih (hstep s l u h₀ hu) hrun

section Guarded

variable (step : σ → ι → Option σ) (g : σ → ι → Prop) [∀ s l, Decidable (g s l)]

/-- The steps of `step` that meet the guard `g` in the state they are taken in. -/
def restrict (s : σ) (l : ι) : Option σ := if g s l then step s l else none

variable {step g}

theorem restrict_eq_some {s t : σ} {l : ι} :
    restrict step g s l = some t ↔ g s l ∧ step s l = some t := by
  unfold restrict
  split_ifs with h <;> simp [h]

/-- A run whose steps all meet the guard is a run. -/
theorem Reachable.of_restrict {s t : σ} (h : Reachable (restrict step g) s t) :
    Reachable step s t :=
  h.invariant (Reachable.refl step s) fun _ l _ hu hv => hu.tail l (restrict_eq_some.mp hv).2

end Guarded

end Transition
