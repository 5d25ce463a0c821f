import Mathlib.Data.List.Basic

/-!
# Runs of calls that answer

A machine performs calls one after another; each answers, or ends the run with a failure. Two
machines that are related before a call, answer it alike and are related after it give the same
answers to every run of calls.

## Main definitions

* `performs call s cs`: the answers to the calls `cs`, and the state or the failure they end in
* `Allowed call g s cs`: every call is made in a state that allows it
* `Alike R x y`: two outcomes of one call

## Main results

* `performs_eq_error`: a failure is that of one call
* `performs_alike`: related machines give the same answers
-/

namespace Transition

variable {σ τ ι ε α : Type*}

/-- The answers to the calls `cs` made in order, and how they end. -/
def performs (call : σ → ι → Except ε (σ × α)) : σ → List ι → List α × Except ε σ
  | s, [] => ([], .ok s)
  | s, c :: cs =>
    match call s c with
    | .error e => ([], .error e)
    | .ok r => (r.2 :: (performs call r.1 cs).1, (performs call r.1 cs).2)

/-- Every call of `cs` is made in a state that allows it. -/
def Allowed (call : σ → ι → Except ε (σ × α)) (g : σ → ι → Prop) : σ → List ι → Prop
  | _, [] => True
  | s, c :: cs =>
    g s c ∧
      match call s c with
      | .error _ => True
      | .ok r => Allowed call g r.1 cs

theorem Allowed.tail {call : σ → ι → Except ε (σ × α)} {g : σ → ι → Prop} {s : σ} {c : ι}
    {cs : List ι} (h : Allowed call g s (c :: cs)) {r : σ × α} (hr : call s c = .ok r) :
    Allowed call g r.1 cs := by
  have := h.2
  rwa [hr] at this

instance Allowed.decidable (call : σ → ι → Except ε (σ × α)) (g : σ → ι → Prop)
    [∀ s c, Decidable (g s c)] : ∀ s cs, Decidable (Allowed call g s cs)
  | _, [] => isTrue trivial
  | s, c :: cs =>
    match h : call s c with
    | .error _ => decidable_of_iff (g s c) (by simp [Allowed, h])
    | .ok r =>
      have := Allowed.decidable call g r.1 cs
      decidable_of_iff (g s c ∧ Allowed call g r.1 cs) (by simp [Allowed, h])

/-- Two outcomes of one call: the same failure, or the same answer in related states. -/
def Alike (R : σ → τ → Prop) : Except ε (σ × α) → Except ε (τ × α) → Prop
  | .error e, .error f => e = f
  | .ok r, .ok q => r.2 = q.2 ∧ R r.1 q.1
  | _, _ => False

/-- How two runs of calls end: in the same failure, or in related states. -/
def EndAlike (R : σ → τ → Prop) : Except ε σ → Except ε τ → Prop
  | .error e, .error f => e = f
  | .ok s, .ok t => R s t
  | _, _ => False

theorem EndAlike.mono {R R' : σ → τ → Prop} {x : Except ε σ} {y : Except ε τ}
    (h : EndAlike R x y) (hR : ∀ s t, R s t → R' s t) : EndAlike R' x y := by
  cases x <;> cases y
  · exact h
  · exact h
  · exact h
  · exact hR _ _ h

/-- A run that fails does so in one of its calls. -/
theorem performs_eq_error {call : σ → ι → Except ε (σ × α)} {s : σ} {cs : List ι} {e : ε}
    (h : (performs call s cs).2 = .error e) : ∃ t c, call t c = .error e := by
  induction cs generalizing s with
  | nil => cases h
  | cons c cs ih =>
    simp only [performs] at h
    cases hs : call s c with
    | error f =>
      rw [hs] at h
      cases h
      exact ⟨s, c, hs⟩
    | ok r =>
      rw [hs] at h
      exact ih h

/-- **Related machines give the same answers**, and end alike. -/
theorem performs_alike {call : σ → ι → Except ε (σ × α)} {call' : τ → ι → Except ε (τ × α)}
    {R : σ → τ → Prop} {g : τ → ι → Prop}
    (hstep : ∀ s t c, R s t → g t c → Alike R (call s c) (call' t c)) {s : σ} {t : τ}
    (h : R s t) {cs : List ι} (hcs : Allowed call' g t cs) :
    (performs call s cs).1 = (performs call' t cs).1 ∧
      EndAlike R (performs call s cs).2 (performs call' t cs).2 := by
  induction cs generalizing s t with
  | nil => exact ⟨rfl, h⟩
  | cons c cs ih =>
    have hc := hstep s t c h hcs.1
    simp only [performs]
    cases hs : call s c with
    | error e =>
      cases ht : call' t c with
      | error f =>
        rw [hs, ht] at hc
        exact ⟨rfl, hc⟩
      | ok q =>
        rw [hs, ht] at hc
        exact hc.elim
    | ok r =>
      cases ht : call' t c with
      | error f =>
        rw [hs, ht] at hc
        exact hc.elim
      | ok q =>
        rw [hs, ht] at hc
        obtain ⟨hans, hend⟩ := ih hc.2 (hcs.tail ht)
        refine ⟨?_, hend⟩
        show r.2 :: _ = q.2 :: _
        rw [show r.2 = q.2 from hc.1, hans]

end Transition
