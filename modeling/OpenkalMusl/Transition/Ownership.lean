import OpenkalMusl.Transition.Custody
import OpenkalMusl.Transition.History

/-!
# Ownership of what a run obtains

A history of what was obtained and given back, and a relation that says who owns what. Each thing
that is held has one owner, only what is held is owned, and nothing is given back that is not held:
the relation stays so as things are obtained for an owner, pass from one owner to another, and are
given back.

## Main definitions

* `Traffic`, `holding`, `Once`: obtaining and giving back, what is held, and nothing
  given back twice
* `Owned own hist`: what is held has one owner

## Main results

* `Owned.grant`, `Owned.pass`, `Owned.move`, `Owned.revokeAll`: the rules
-/

namespace Transition

/-- A thing is obtained, or given back. -/
inductive Traffic (α : Type*) where
  | got (a : α)
  | gave (a : α)
  deriving DecidableEq

namespace Traffic

variable {α : Type*}

def gets : Traffic α → Option α
  | .got a => some a
  | .gave _ => none

def gives : Traffic α → Option α
  | .gave a => some a
  | .got _ => none

variable [DecidableEq α]

/-- What was obtained and not given back since. -/
def holding (hist : List (Traffic α)) : Finset α := History.held gets gives hist

@[simp] theorem holding_nil : holding ([] : List (Traffic α)) = ∅ := rfl

@[simp] theorem holding_got (hist : List (Traffic α)) (a : α) :
    holding (hist ++ [.got a]) = insert a (holding hist) := History.held_take rfl

@[simp] theorem holding_gave (hist : List (Traffic α)) (a : α) :
    holding (hist ++ [.gave a]) = (holding hist).erase a := History.held_give rfl rfl

theorem mem_holding_append_got {hist : List (Traffic α)} {as : List α} {a : α} :
    a ∈ holding (hist ++ as.map .got) ↔ a ∈ holding hist ∨ a ∈ as := by
  induction as using List.reverseRecOn with
  | nil => simp
  | append_singleton as b ih =>
    rw [List.map_append, List.map_cons, List.map_nil, ← List.append_assoc, holding_got,
      Finset.mem_insert, ih, List.mem_append, List.mem_singleton]
    tauto

/-- Nothing was given back that was not held then, and so nothing twice. -/
def Once (hist : List (Traffic α)) : Prop :=
  History.Always (fun pre e => ∀ a, e = .gave a → a ∈ holding pre) hist

theorem once_got {hist : List (Traffic α)} {a : α} : Once (hist ++ [.got a]) ↔ Once hist := by
  unfold Once
  rw [History.always_snoc]
  exact ⟨fun h => h.1, fun h => ⟨h, nofun⟩⟩

theorem once_gave {hist : List (Traffic α)} {a : α} :
    Once (hist ++ [.gave a]) ↔ Once hist ∧ a ∈ holding hist := by
  unfold Once
  rw [History.always_snoc]
  refine and_congr_right fun _ => ⟨fun h => h a rfl, ?_⟩
  rintro h b ⟨⟩
  exact h

end Traffic

open Traffic

variable {ω α : Type*} [DecidableEq α]

/-- What is held has one owner, only what is held is owned, and nothing is given back twice. -/
structure Owned (own : ω → α → Prop) (hist : List (Traffic α)) : Prop where
  one : ∀ a ∈ holding hist, ∃! o, own o a
  held : ∀ o a, own o a → a ∈ holding hist
  once : Once hist

namespace Owned

variable {own own' : ω → α → Prop} {hist : List (Traffic α)}

theorem congr (h : Owned own hist) (heq : ∀ o a, own' o a ↔ own o a) : Owned own' hist := by
  obtain rfl : own' = own := funext fun o => funext fun a => propext (heq o a)
  exact h

theorem custody (h : Owned own hist) : Custody own {a | a ∈ holding hist} := ⟨h.one, h.held⟩

theorem of_custody (h : Custody own {a | a ∈ holding hist}) (honce : Once hist) : Owned own hist :=
  ⟨h.one, h.held, honce⟩

theorem unique (h : Owned own hist) {o o' : ω} {a : α} (ho : own o a) (ho' : own o' a) :
    o = o' := h.custody.unique ho ho'

/-- **A thing is obtained for an owner.** -/
theorem grant (h : Owned own hist) {o : ω} {a : α} (ha : a ∉ holding hist)
    (heq : ∀ o' b, own' o' b ↔ own o' b ∨ o' = o ∧ b = a) : Owned own' (hist ++ [.got a]) := by
  refine of_custody (h.custody.enter (o := o) ha (fun b => ?_) heq) (once_got.mpr h.once)
  change b ∈ holding (hist ++ [.got a]) ↔ b = a ∨ b ∈ holding hist
  rw [holding_got, Finset.mem_insert]

/-- A thing is obtained and given back at once. -/
theorem pass (h : Owned own hist) {a : α} (ha : a ∉ holding hist) :
    Owned own (hist ++ [.got a] ++ [.gave a]) := by
  have hsame : holding (hist ++ [.got a] ++ [.gave a]) = holding hist := by
    rw [holding_gave, holding_got, Finset.erase_insert ha]
  refine ⟨fun b hb => h.one b (hsame ▸ hb), fun o b hb => ?_, ?_⟩
  · rw [hsame]
    exact h.held o b hb
  · rw [once_gave, once_got, holding_got]
    exact ⟨h.once, Finset.mem_insert_self _ _⟩

/-- A thing passes from its owner to another. -/
theorem move (h : Owned own hist) {o : ω} {a : α} (ha : a ∈ holding hist)
    (heq : ∀ o' b, own' o' b ↔ own o' b ∧ b ≠ a ∨ o' = o ∧ b = a) : Owned own' hist :=
  of_custody (h.custody.move ha heq) h.once

/-- A thing is given back. -/
theorem revoke (h : Owned own hist) {a : α} (ha : a ∈ holding hist) :
    Owned (fun o b => own o b ∧ b ≠ a) (hist ++ [.gave a]) := by
  refine of_custody (h.custody.leave (a := a) (fun b => ?_) fun _ _ => Iff.rfl)
    (once_gave.mpr ⟨h.once, ha⟩)
  change b ∈ holding (hist ++ [.gave a]) ↔ b ≠ a ∧ b ∈ holding hist
  rw [holding_gave, Finset.mem_erase]

/-- **Things are given back**, one after another. -/
theorem revokeAll (h : Owned own hist) {as : List α} (hnodup : as.Nodup)
    (has : ∀ a ∈ as, a ∈ holding hist) (heq : ∀ o b, own' o b ↔ own o b ∧ b ∉ as) :
    Owned own' (hist ++ as.map .gave) := by
  induction as generalizing own hist with
  | nil =>
    rw [List.map_nil, List.append_nil]
    exact h.congr fun o b => by simp [heq]
  | cons a as ih =>
    obtain ⟨ha, hrest⟩ := List.nodup_cons.mp hnodup
    -- the others are still held after the first was given back
    have hstep := ih (h.revoke (has a (List.mem_cons_self ..))) hrest (fun b hb => by
      rw [holding_gave, Finset.mem_erase]
      exact ⟨fun hba => ha (hba ▸ hb), has b (List.mem_cons_of_mem _ hb)⟩) (fun o b => by
      rw [heq, List.mem_cons, not_or, and_assoc])
    rwa [List.append_assoc] at hstep

end Owned

end Transition
