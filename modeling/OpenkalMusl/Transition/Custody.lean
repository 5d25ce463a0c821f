import Mathlib.Data.Set.Basic
import Mathlib.Logic.ExistsUnique

/-!
# One keeper for each thing

A set of things, and a relation that says who keeps what: each thing of the set has one keeper, and
only things of the set are kept. It stays so as a thing enters the set with a keeper, passes from
one keeper to another, and leaves the set.

## Main definitions

* `Custody own all`: each of `all` has one keeper
* `Exchange own own' out into`: one thing is taken from a keeper, and one given to a keeper

## Main results

* `Custody.enter`, `Custody.move`, `Custody.leave`: the rules
* `Custody.still`, `Custody.pass`, `Custody.gain`, `Custody.drop`: the rules of an exchange
-/

namespace Transition

variable {ω α : Type*}

/-- Each thing of the set has one keeper, and nothing else is kept. -/
structure Custody (own : ω → α → Prop) (all : Set α) : Prop where
  one : ∀ a ∈ all, ∃! o, own o a
  held : ∀ o a, own o a → a ∈ all

namespace Custody

variable {own own' : ω → α → Prop} {all all' : Set α}

theorem congr (h : Custody own all) (hall : ∀ a, a ∈ all' ↔ a ∈ all)
    (heq : ∀ o a, own' o a ↔ own o a) : Custody own' all' := by
  obtain rfl : own' = own := funext fun o => funext fun a => propext (heq o a)
  obtain rfl : all' = all := Set.ext hall
  exact h

theorem unique (h : Custody own all) {o o' : ω} {a : α} (ho : own o a) (ho' : own o' a) : o = o' :=
  (h.one a (h.held o a ho)).unique ho ho'

/-- **A thing enters**, with a keeper. -/
theorem enter (h : Custody own all) {o : ω} {a : α} (ha : a ∉ all)
    (hall : ∀ b, b ∈ all' ↔ b = a ∨ b ∈ all)
    (heq : ∀ o' b, own' o' b ↔ own o' b ∨ o' = o ∧ b = a) : Custody own' all' where
  one := by
    intro b hb
    rcases (hall b).mp hb with rfl | hb
    · -- it was outside, so nobody kept it
      refine ⟨o, (heq o b).mpr (Or.inr ⟨rfl, rfl⟩), fun o' ho' => ?_⟩
      rcases (heq o' b).mp ho' with ho' | ⟨rfl, -⟩
      · exact absurd (h.held o' b ho') ha
      · rfl
    · have hne : b ≠ a := fun hba => ha (hba ▸ hb)
      obtain ⟨p, hp, huniq⟩ := h.one b hb
      refine ⟨p, (heq p b).mpr (Or.inl hp), fun o' ho' => ?_⟩
      rcases (heq o' b).mp ho' with ho' | ⟨-, hba⟩
      · exact huniq o' ho'
      · exact absurd hba hne
  held := by
    intro o' b hb
    rcases (heq o' b).mp hb with hb | ⟨-, rfl⟩
    · exact (hall b).mpr (Or.inr (h.held o' b hb))
    · exact (hall b).mpr (Or.inl rfl)

/-- **A thing passes** from its keeper to another. -/
theorem move (h : Custody own all) {o : ω} {a : α} (ha : a ∈ all)
    (heq : ∀ o' b, own' o' b ↔ own o' b ∧ b ≠ a ∨ o' = o ∧ b = a) : Custody own' all where
  one := by
    intro b hb
    by_cases hba : b = a
    · subst hba
      refine ⟨o, (heq o b).mpr (Or.inr ⟨rfl, rfl⟩), fun o' ho' => ?_⟩
      rcases (heq o' b).mp ho' with ⟨-, hne⟩ | ⟨rfl, -⟩
      · exact absurd rfl hne
      · rfl
    · obtain ⟨p, hp, huniq⟩ := h.one b hb
      refine ⟨p, (heq p b).mpr (Or.inl ⟨hp, hba⟩), fun o' ho' => ?_⟩
      rcases (heq o' b).mp ho' with ⟨ho', -⟩ | ⟨-, hba'⟩
      · exact huniq o' ho'
      · exact absurd hba' hba
  held := by
    intro o' b hb
    rcases (heq o' b).mp hb with ⟨hb, -⟩ | ⟨-, rfl⟩
    · exact h.held o' b hb
    · exact ha

/-- **A thing leaves.** -/
theorem leave (h : Custody own all) {a : α} (hall : ∀ b, b ∈ all' ↔ b ≠ a ∧ b ∈ all)
    (heq : ∀ o b, own' o b ↔ own o b ∧ b ≠ a) : Custody own' all' where
  one := by
    intro b hb
    obtain ⟨hne, hb⟩ := (hall b).mp hb
    obtain ⟨p, hp, huniq⟩ := h.one b hb
    exact ⟨p, (heq p b).mpr ⟨hp, hne⟩, fun o' ho' => huniq o' ((heq o' b).mp ho').1⟩
  held := by
    intro o b hb
    obtain ⟨hb, hne⟩ := (heq o b).mp hb
    exact (hall b).mpr ⟨hne, h.held o b hb⟩

end Custody

/-- What is taken from one keeper and given to one: nothing else changes hands. -/
def Exchange (own own' : ω → α → Prop) (out into : Option (ω × α)) : Prop :=
  ∀ o a, own' o a ↔ own o a ∧ out ≠ some (o, a) ∨ into = some (o, a)

namespace Custody

variable {own own' : ω → α → Prop} {all all' : Set α} {o p : ω} {a : α}

theorem still (h : Custody own all) (hx : Exchange own own' none none) : Custody own' all :=
  h.congr (fun _ => Iff.rfl) fun o a => (hx o a).trans (by simp)

/-- What is not taken from the keeper of a thing is another. -/
theorem not_taken_iff (h : Custody own all) (hp : own p a) {q : ω} {b : α} (hq : own q b) :
    some (p, a) ≠ some (q, b) ↔ b ≠ a := by
  constructor
  · rintro hne rfl
    exact hne (by rw [h.unique hp hq])
  · rintro hne heq
    exact hne (Prod.mk.inj (Option.some.inj heq)).2.symm

/-- A thing passes from the keeper who has it. -/
theorem pass (h : Custody own all) (hp : own p a)
    (hx : Exchange own own' (some (p, a)) (some (o, a))) :
    Custody own' all := by
  refine h.move (o := o) (h.held p a hp) fun q b => (hx q b).trans (or_congr ?_ ?_)
  · exact and_congr_right fun hq => h.not_taken_iff hp hq
  · simp only [Option.some.injEq, Prod.mk.injEq, eq_comm]

theorem gain (h : Custody own all) (ha : a ∉ all) (hall : ∀ b, b ∈ all' ↔ b = a ∨ b ∈ all)
    (hx : Exchange own own' none (some (o, a))) : Custody own' all' := by
  refine h.enter (o := o) ha hall fun q b => (hx q b).trans (or_congr (by simp) ?_)
  simp only [Option.some.injEq, Prod.mk.injEq, eq_comm]

/-- A thing leaves from the keeper who has it. -/
theorem drop (h : Custody own all) (hp : own p a) (hall : ∀ b, b ∈ all' ↔ b ≠ a ∧ b ∈ all)
    (hx : Exchange own own' (some (p, a)) none) : Custody own' all' := by
  refine h.leave hall fun q b => (hx q b).trans ?_
  simp only [reduceCtorEq, or_false]
  exact and_congr_right fun hq => h.not_taken_iff hp hq

end Custody

end Transition
