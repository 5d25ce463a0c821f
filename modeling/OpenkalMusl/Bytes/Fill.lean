import OpenkalMusl.Bytes.Program

/-!
# Filling a range of a memory

A function that writes a range stores pieces of it, which may overlap, in an order of its own; each
piece holds what the range is to hold in the end. `Memory.fill` is the memory in which one range
holds what it is to hold and the rest is as it was, and a store of a piece that touches the range
makes it longer.

## Main definitions

* `Memory.fill`: one range of a memory replaced
* `Returns`: what a program returns and the memory it leaves

## Main results

* `does_store_fill`: a store that touches the filled range
* `Memory.fill_vec_of_outside`: a load outside the filled range
-/

namespace Bytes

variable {m : Memory} {T : ℕ → UInt8} {lo hi : ℕ}

/-- The bytes from `lo` to below `hi` replaced by what `T` holds there. -/
def Memory.fill (m : Memory) (T : ℕ → UInt8) (lo hi : ℕ) : Memory := fun a =>
  if lo ≤ a ∧ a < hi then T a else m a

/-- The program returns `a` and leaves the memory `m'`. -/
def Returns {α : Type} (x : Program α) (m : Memory) (a : α) (m' : Memory) : Prop :=
  ∃ ls, x m = some (a, m', ls)

theorem Does.returns {α : Type} {x : Program α} {R : Load → Prop} {a : α} {m' : Memory}
    (h : Does x R m (fun b m'' => b = a ∧ m'' = m')) : Returns x m a m' := by
  obtain ⟨b, m'', ls, hx, ⟨rfl, rfl⟩, -⟩ := h
  exact ⟨ls, hx⟩

namespace Memory

theorem fill_empty (h : hi ≤ lo) : m.fill T lo hi = m := by
  funext a
  rw [fill, if_neg (by omega)]

theorem put_eq_fill {w p : ℕ} {v : Vec w} (h : ∀ i : Fin w, v i = T (p + i)) :
    m.put p v = m.fill T p (p + w) := by
  funext a
  by_cases ha : p ≤ a ∧ a < p + w
  · rw [put, dif_pos ha, fill, if_pos ha, h]
    congr 1
    change p + (a - p) = a
    omega
  · rw [put, dif_neg ha, fill, if_neg ha]

/-- Two ranges that touch are one. -/
theorem fill_fill {lo' hi' : ℕ} (h : lo' ≤ hi) (h' : lo ≤ hi') :
    (m.fill T lo hi).fill T lo' hi' = m.fill T (min lo lo') (max hi hi') := by
  funext a
  simp only [fill]
  by_cases hin : min lo lo' ≤ a ∧ a < max hi hi'
  · rw [if_pos hin]
    by_cases hin' : lo' ≤ a ∧ a < hi'
    · rw [if_pos hin']
    · rw [if_neg hin', if_pos (by omega)]
  · rw [if_neg hin, if_neg (by omega), if_neg (by omega)]

/-- A range that goes on where another ends, or within it. -/
theorem fill_above {lo' hi' : ℕ} (h : lo ≤ lo') (h' : lo' ≤ hi) (h'' : hi ≤ hi') :
    (m.fill T lo hi).fill T lo' hi' = m.fill T lo hi' := by
  rw [fill_fill h' (by omega), min_eq_left h, max_eq_right h'']

/-- A range that ends where another begins, or within it. -/
theorem fill_below {lo' hi' : ℕ} (h : lo' ≤ lo) (h' : lo ≤ hi') (h'' : hi' ≤ hi) :
    (m.fill T lo hi).fill T lo' hi' = m.fill T lo' hi := by
  rw [fill_fill (by omega) h', min_eq_right h, max_eq_left h'']

/-- Four pieces one after the other are a range. -/
theorem put_four {w p : ℕ} {v₀ v₁ v₂ v₃ : Vec w} (h₀ : ∀ i : Fin w, v₀ i = T (p + i))
    (h₁ : ∀ i : Fin w, v₁ i = T (p + w + i)) (h₂ : ∀ i : Fin w, v₂ i = T (p + 2 * w + i))
    (h₃ : ∀ i : Fin w, v₃ i = T (p + 3 * w + i)) :
    (((m.put p v₀).put (p + w) v₁).put (p + 2 * w) v₂).put (p + 3 * w) v₃ =
      m.fill T p (p + 4 * w) := by
  rw [put_eq_fill h₀, put_eq_fill h₁, put_eq_fill h₂, put_eq_fill h₃,
    fill_above (by omega) (by omega) (by omega), fill_above (by omega) (by omega) (by omega),
    fill_above (by omega) (by omega) (by omega)]
  congr 1
  omega

theorem fill_vec_of_outside {w p : ℕ} (h : p + w ≤ lo ∨ hi ≤ p) :
    (m.fill T lo hi).vec w p = m.vec w p := by
  funext i
  simp only [vec, fill]
  rw [if_neg (by omega)]

theorem fill_of_outside {a : ℕ} (h : a < lo ∨ hi ≤ a) : m.fill T lo hi a = m a := by
  rw [fill, if_neg (by omega)]

end Memory

section Rules

variable {R : Load → Prop}

/-- A piece stored beside or across the filled range makes it longer. -/
theorem does_store_fill {w p : ℕ} {v : Vec w} {Q : Unit → Memory → Prop}
    (hv : ∀ i : Fin w, v i = T (p + i)) (hp : p ≤ hi) (hp' : lo ≤ p + w)
    (h : Q () (m.fill T (min lo p) (max hi (p + w)))) :
    Does (Program.store p v) R (m.fill T lo hi) Q := by
  apply does_store
  rw [Memory.put_eq_fill hv, Memory.fill_fill hp hp']
  exact h

/-- A piece stored from within the filled range, or its end, to beyond it. -/
theorem does_store_above {w p : ℕ} {v : Vec w} {Q : Unit → Memory → Prop}
    (hv : ∀ i : Fin w, v i = T (p + i)) (hlo : lo ≤ p) (hp : p ≤ hi) (hhi : hi ≤ p + w)
    (h : Q () (m.fill T lo (p + w))) : Does (Program.store p v) R (m.fill T lo hi) Q := by
  apply does_store
  rw [Memory.put_eq_fill hv, Memory.fill_above hlo hp hhi]
  exact h

/-- The first piece. -/
theorem does_store_first {w p : ℕ} {v : Vec w} {Q : Unit → Memory → Prop}
    (hv : ∀ i : Fin w, v i = T (p + i)) (h : Q () (m.fill T p (p + w))) :
    Does (Program.store p v) R m Q := by
  apply does_store
  rw [Memory.put_eq_fill hv]
  exact h

end Rules

end Bytes
