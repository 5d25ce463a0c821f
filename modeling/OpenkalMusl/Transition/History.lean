import Mathlib.Data.Finset.Basic
import Mathlib.Data.List.Basic

/-!
# Histories

A history is the list of the events of a run, the latest last. A property of an event in its past
holds along a history when it holds of every event, with the events before it.

## Main definitions

* `Always P log`: every event of `log` has `P` with its past
* `held take give log`: what was taken and not given up since

## Main results

* `always_snoc`: one event more
-/

namespace History

variable {ε α : Type*}

/-- Every event of a history has `P` with the events before it. -/
def Always (P : List ε → ε → Prop) (log : List ε) : Prop :=
  ∀ pre e post, log = pre ++ e :: post → P pre e

theorem always_nil (P : List ε → ε → Prop) : Always P [] := by
  intro pre e post h
  have := congrArg List.length h
  simp at this

/-- **One event more.** -/
theorem always_snoc {P : List ε → ε → Prop} {log : List ε} {e : ε} :
    Always P (log ++ [e]) ↔ Always P log ∧ P log e := by
  constructor
  · intro h
    refine ⟨fun pre x post hlog => ?_, h log e [] rfl⟩
    exact h pre x (post ++ [e]) (by rw [hlog, List.append_assoc, List.cons_append])
  · rintro ⟨h, he⟩ pre x post hlog
    rcases List.eq_nil_or_concat post with rfl | ⟨post', y, rfl⟩
    · obtain ⟨rfl, hx⟩ := List.append_inj' hlog rfl
      rw [← (List.cons.inj hx).1]
      exact he
    · rw [List.concat_eq_append, ← List.cons_append, ← List.append_assoc] at hlog
      obtain ⟨rfl, -⟩ := List.append_inj' hlog rfl
      exact h pre x post' rfl

variable [DecidableEq α] (take give : ε → Option α)

/-- What the events of a history took and none has given up since. -/
def held (log : List ε) : Finset α :=
  log.foldl (fun s e =>
    match take e with
    | some a => insert a s
    | none =>
      match give e with
      | some a => s.erase a
      | none => s) ∅

variable {take give}

theorem held_take {log : List ε} {e : ε} {a : α} (h : take e = some a) :
    held take give (log ++ [e]) = insert a (held take give log) := by
  simp only [held, List.foldl_append, List.foldl_cons, List.foldl_nil, h]

theorem held_give {log : List ε} {e : ε} {a : α} (h : take e = none) (h' : give e = some a) :
    held take give (log ++ [e]) = (held take give log).erase a := by
  simp only [held, List.foldl_append, List.foldl_cons, List.foldl_nil, h, h']

theorem held_other {log : List ε} {e : ε} (h : take e = none) (h' : give e = none) :
    held take give (log ++ [e]) = held take give log := by
  simp only [held, List.foldl_append, List.foldl_cons, List.foldl_nil, h, h']

end History
