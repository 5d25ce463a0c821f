import OpenkalMusl.Threads.Conditions

/-!
# The lists of a condition variable

What holds of the nodes of the contexts that wait for a condition variable, of the lists that they
are in, and of the signalers that go through these, in every run.

## Main definitions

* `CondStage`, `SignalStage`: what a context is to a list, and to the nodes that it signals
* `CondLists`, `CondNodes`, `CondGroups`, `CondRefs`: the invariants
-/

namespace OpenkalMusl

open Transition Chaining

/-- What the context of a node has done: its node is not there, or in a list and nobody has seen it
leave, or it is leaving and still in the list, or out of it; or it was signaled, and is behind its
barrier or past it. -/
inductive CondStage where
  | out
  | waits
  | leaves
  | left
  | behind
  | took
  deriving DecidableEq

def CondStage.linked : CondStage → Bool
  | .out | .left => false
  | _ => true

/-- What a signaler is at: the walk, the count of those that leave, or the first barrier. -/
inductive SignalStage (C : Type*) where
  | none
  | visits (p first : Option C)
  | counts (first : Option C)
  | frees (first : Option C)

namespace SignalStage

variable {C : Type*}

def first? : SignalStage C → Option (Option C)
  | .none => .none
  | .visits _ first | .counts first | .frees first => some first

def counting : SignalStage C → Bool
  | .visits _ _ | .counts _ => true
  | _ => false

end SignalStage

namespace CondPc

variable {C : Type*}

def stage : CondPc C → CondStage
  | .unlock .entered | .unlockWake .entered | .release | .park | .parked | .test _ | .leave _ =>
    .waits
  | .lock (.unlink _) _ | .crit (.unlink _) => .leaves
  | .unlock (.unlinked _) | .unlockWake (.unlinked _) | .notify _ => .left
  | .barrier _ _ => .behind
  | .relock _ true | .pass _ => .took
  | _ => .out

def signals : CondPc C → SignalStage C
  | .visit _ p first => .visits p first
  | .unlock (.split first) | .unlockWake (.split first) | .watch first | .watching first _ _ =>
    .counts first
  | .free first => .frees first
  | _ => .none

end CondPc

variable {C : Type*}

/-- The oldest node of a list that was signaled. -/
def Cond.oldest (o : Cond C) (g : List C) : Option C :=
  g.find? fun x => decide (o.state x = .signaled)

/-- The barrier of a node is closed, and its context is not past it. -/
def HeldBack (o : Cond C) (st : C → CondStage) (x : C) : Prop := o.barrier x = 2 ∧ st x ≠ .took

/-! ## The invariants -/

/-- The lists that there are, and that the pointers make them. -/
structure CondLists (o : Cond C) (st : C → CondStage) : Prop where
  nodup : (o.visited ++ o.queue).Nodup
  nodup_groups : o.groups.flatten.Nodup
  apart : ∀ g ∈ o.groups, ∀ x ∈ g, x ∉ o.visited ++ o.queue
  linked : ∀ x, (st x).linked = true ↔ x ∈ o.visited ++ o.queue ∨ ∃ g ∈ o.groups, x ∈ g
  head : o.head = (o.visited ++ o.queue).getLast?
  tail : o.tail = (o.visited ++ o.queue).head?
  doubly : Doubly o.prev o.next (o.visited ++ o.queue)
  /-- The nodes before those of a group may be gone. -/
  links : ∀ g ∈ o.groups, Links o.prev g none
  back : ∀ g ∈ o.groups, ∀ x ∈ g, o.state x = .leaving → Links o.next g.reverse none

/-- What is written on the nodes. -/
structure CondNodes (o : Cond C) (st : C → CondStage) : Prop where
  waits : ∀ x, st x = .waits → o.state x ≠ .leaving
  leaves : ∀ x, st x = .leaves ∨ st x = .left → o.state x = .leaving
  behind : ∀ x, st x = .behind ∨ st x = .took → o.state x = .signaled
  queue : ∀ x ∈ o.queue, o.state x ≠ .signaled ∧ o.notify x = none
  held : ∀ x ∈ o.visited ++ o.queue, HeldBack o st x

/-- A group: all but its first node are held, and the first is held by a signaler, or the others are
behind it. -/
structure GroupOk (o : Cond C) (st : C → CondStage) (sg : C → SignalStage C) (g : List C) :
    Prop where
  states : ∀ x ∈ g, o.state x ≠ .waiting
  rest : ∀ x ∈ g.tail, HeldBack o st x
  first : ∀ x, g.head? = some x →
    HeldBack o st x ∨ (o.barrier x = 0 ∨ st x = .took) ∧ ∀ y ∈ g, o.state y = .signaled
  pending : ∀ x, o.oldest g = some x → HeldBack o st x → ∃ s, (sg s).first? = some (some x)
  leaving : ∀ x ∈ g, o.state x = .leaving →
    ∃ s, o.notify x = some s ∧ (sg s).first? = some (o.oldest g)

/-- What signalers have before them. -/
structure CondGroups (o : Cond C) (st : C → CondStage) (sg : C → SignalStage C) : Prop where
  groups : ∀ g ∈ o.visited :: o.groups, GroupOk o st sg g
  visits : ∀ c p first, sg c = .visits p first →
    p = o.queue.head? ∧ first = o.oldest o.visited ∧
      (∀ y ∈ o.visited, o.state y = .leaving → o.notify y = some c) ∧
      ∀ y, st y = .leaves ∨ st y = .left → o.notify y = some c → y ∈ o.visited
  unvisited : (∀ c p first, sg c ≠ .visits p first) → o.visited = []
  first : ∀ s x, (sg s).first? = some (some x) →
    HeldBack o st x ∧ ∃ g ∈ o.visited :: o.groups, o.oldest g = some x
  unique : ∀ s t x, (sg s).first? = some (some x) → (sg t).first? = some (some x) → s = t

/-- The contexts that are leaving and will tell the signaler `s`. -/
def leavers [Fintype C] [DecidableEq C] (o : Cond C) (st : C → CondStage) (s : C) : Finset C :=
  Finset.univ.filter fun x => (st x = .leaves ∨ st x = .left) ∧ o.notify x = some s

/-- Who tells whom. -/
structure CondRefs [Fintype C] [DecidableEq C] (o : Cond C) (st : C → CondStage)
    (sg : C → SignalStage C) : Prop where
  ref : ∀ s, (sg s).counting = true → o.ref s = (leavers o st s).card
  notify : ∀ x s, st x = .leaves ∨ st x = .left → o.notify x = some s →
    (sg s).counting = true

/-! ## Frames -/

section Frame

variable {o o' : Cond C} {st st' : C → CondStage} {sg sg' : C → SignalStage C} {g : List C}

theorem Cond.oldest_congr (h : ∀ x ∈ g, o'.state x = o.state x) : o'.oldest g = o.oldest g := by
  unfold Cond.oldest
  induction g with
  | nil => rfl
  | cons a g ih =>
    rw [List.find?_cons, List.find?_cons, h a List.mem_cons_self,
      ih fun x hx => h x (List.mem_cons_of_mem a hx)]

theorem Cond.state_of_oldest {x : C} (h : o.oldest g = some x) :
    x ∈ g ∧ o.state x = .signaled :=
  ⟨List.mem_of_find?_eq_some h, by simpa using List.find?_some h⟩

/-- A group that nothing was written to, and whose signaler is still there. -/
theorem GroupOk.congr (h : GroupOk o st sg g) (hstate : ∀ x ∈ g, o'.state x = o.state x)
    (hbarrier : ∀ x ∈ g, o'.barrier x = o.barrier x)
    (hnotify : ∀ x ∈ g, o'.notify x = o.notify x)
    (htook : ∀ x ∈ g, st' x = .took ↔ st x = .took)
    (hfirst : ∀ x ∈ g, ∀ s, (sg s).first? = some (some x) → ∃ t, (sg' t).first? = some (some x))
    (hleaving : ∀ x ∈ g, o.state x = .leaving → ∀ s, o.notify x = some s →
      (sg s).first? = some (o.oldest g) → (sg' s).first? = some (o.oldest g)) :
    GroupOk o' st' sg' g := by
  have holdest := Cond.oldest_congr hstate
  have hheld : ∀ x ∈ g, HeldBack o' st' x ↔ HeldBack o st x := by
    intro x hx
    unfold HeldBack
    rw [hbarrier x hx, ne_eq, htook x hx]
  constructor
  · intro x hx
    rw [hstate x hx]
    exact h.states x hx
  · exact fun x hx => (hheld x (List.mem_of_mem_tail hx)).mpr (h.rest x hx)
  · intro x hx
    have hmem := List.mem_of_mem_head? hx
    rw [hheld x hmem, hbarrier x hmem, htook x hmem]
    refine (h.first x hx).imp_right fun hopen => ⟨hopen.1, fun y hy => ?_⟩
    rw [hstate y hy]
    exact hopen.2 y hy
  · intro x hx hheld'
    rw [holdest] at hx
    have hmem := (Cond.state_of_oldest hx).1
    obtain ⟨s, hs⟩ := h.pending x hx ((hheld x hmem).mp hheld')
    exact hfirst x hmem s hs
  · intro x hx hx'
    rw [hstate x hx] at hx'
    obtain ⟨s, hs, hs'⟩ := h.leaving x hx hx'
    rw [hnotify x hx, holdest]
    exact ⟨s, hs, hleaving x hx hx' s hs hs'⟩

/-- Where every signaler is where it was, or further. -/
theorem GroupOk.frame (h : GroupOk o st sg g) (hstate : ∀ x ∈ g, o'.state x = o.state x)
    (hbarrier : ∀ x ∈ g, o'.barrier x = o.barrier x)
    (hnotify : ∀ x ∈ g, o'.notify x = o.notify x)
    (htook : ∀ x ∈ g, st' x = .took ↔ st x = .took)
    (hfirst : ∀ s f, (sg s).first? = some f → (sg' s).first? = some f) : GroupOk o' st' sg' g :=
  h.congr hstate hbarrier hnotify htook (fun _ _ s hs => ⟨s, hfirst s _ hs⟩)
    fun _ _ _ s _ hs => hfirst s _ hs

theorem GroupOk.nil : GroupOk o st sg [] := by
  refine ⟨nofun, nofun, nofun, nofun, nofun⟩

end Frame

/-! ## The lists -/

section Nodup

variable {gs : List (List C)} {g g' : List C} {x : C}

/-- A node is in one group. -/
theorem group_unique (h : gs.flatten.Nodup) (hg : g ∈ gs) (hg' : g' ∈ gs) (hx : x ∈ g)
    (hx' : x ∈ g') : g = g' := by
  induction gs with
  | nil => cases hg
  | cons a gs ih =>
    obtain ⟨-, hrest, hapart⟩ := List.nodup_append.mp (List.flatten_cons ▸ h)
    rcases List.mem_cons.mp hg with rfl | hg₁
    · rcases List.mem_cons.mp hg' with rfl | hg₂
      · rfl
      · exact absurd rfl (hapart x hx x (List.mem_flatten_of_mem hg₂ hx'))
    · rcases List.mem_cons.mp hg' with rfl | hg₂
      · exact absurd rfl (hapart x hx' x (List.mem_flatten_of_mem hg₁ hx))
      · exact ih hrest hg₁ hg₂

theorem nodup_of_flatten (h : gs.flatten.Nodup) (hg : g ∈ gs) : g.Nodup :=
  (List.nodup_flatten.mp h).1 g hg

variable [DecidableEq C]

theorem flatten_erase_sublist (x : C) : (gs.map (·.erase x)).flatten.Sublist gs.flatten := by
  induction gs with
  | nil => exact List.Sublist.refl _
  | cons a gs ih => exact (List.erase_sublist).append ih

end Nodup

namespace CondLists

variable {o : Cond C} {st : C → CondStage} {c : C}

theorem not_mem_of_out (h : CondLists o st) (hc : (st c).linked = false) :
    c ∉ o.visited ++ o.queue ∧ ∀ g ∈ o.groups, c ∉ g := by
  have hno : ¬(c ∈ o.visited ++ o.queue ∨ ∃ g ∈ o.groups, c ∈ g) := by
    rw [← h.linked, hc]
    exact Bool.false_ne_true
  exact ⟨fun hmem => hno (.inl hmem), fun g hg hmem => hno (.inr ⟨g, hg, hmem⟩)⟩

/-- Nothing is done to the lists. -/
theorem frame (h : CondLists o st) {o' : Cond C}
    (hlist : o'.visited ++ o'.queue = o.visited ++ o.queue) (hgroups : o'.groups = o.groups)
    (hends : o'.head = o.head ∧ o'.tail = o.tail)
    (hpointers : o'.prev = o.prev ∧ o'.next = o.next)
    (hstate : ∀ g ∈ o.groups, ∀ x ∈ g, o'.state x = o.state x) : CondLists o' st := by
  constructor
  · rw [hlist]
    exact h.nodup
  · rw [hgroups]
    exact h.nodup_groups
  · rw [hgroups, hlist]
    exact h.apart
  · rw [hgroups, hlist]
    exact h.linked
  · rw [hends.1, hlist]
    exact h.head
  · rw [hends.2, hlist]
    exact h.tail
  · rw [hpointers.1, hpointers.2, hlist]
    exact h.doubly
  · rw [hgroups, hpointers.1]
    exact h.links
  · rw [hgroups, hpointers.2]
    intro g hg x hx hx'
    rw [hstate g hg x hx] at hx'
    exact h.back g hg x hx hx'

variable [DecidableEq C]

/-- Nodes that are and are not in lists stay so. -/
theorem stage (h : CondLists o st) {v : CondStage} (hv : v.linked = (st c).linked) :
    CondLists o (Function.update st c v) where
  nodup := h.nodup
  nodup_groups := h.nodup_groups
  apart := h.apart
  linked x := by
    rw [← h.linked]
    by_cases hx : x = c
    · subst hx
      rw [Function.update_self, hv]
    · rw [Function.update_of_ne hx]
  head := h.head
  tail := h.tail
  doubly := h.doubly
  links := h.links
  back := h.back

theorem enter (h : CondLists o st) (hc : st c = .out) :
    CondLists (o.enter c) (Function.update st c .waits) := by
  obtain ⟨hnew, hnew'⟩ := h.not_mem_of_out (c := c) (by rw [hc]; rfl)
  have hnodup : (o.visited ++ o.queue ++ [c]).Nodup :=
    List.nodup_append.mpr ⟨h.nodup, List.nodup_singleton c, fun a ha b hb heq =>
      hnew (List.mem_singleton.mp hb ▸ heq ▸ ha)⟩
  have hlist : (o.enter c).visited ++ (o.enter c).queue = o.visited ++ o.queue ++ [c] :=
    (List.append_assoc ..).symm
  have hempty : o.tail = none ↔ o.visited ++ o.queue = [] := by
    rw [h.tail, List.head?_eq_none_iff]
  have hhead : ∀ g ∈ o.groups, ∀ a ∈ o.head, a ∉ g := by
    intro g hg a ha hmem
    rw [h.head] at ha
    exact h.apart g hg a hmem (List.mem_of_mem_getLast? ha)
  have hprev : (o.enter c).prev = aimed (Function.update o.prev c none) o.head (some c) := by
    show (if o.tail = none then _ else _) = _
    split_ifs with hnone
    · rw [h.head, hempty.mp hnone]
      rfl
    · rfl
  constructor
  · rw [hlist]
    exact hnodup
  · exact h.nodup_groups
  · intro g hg x hx
    rw [hlist, List.mem_append, List.mem_singleton]
    rintro (hmem | rfl)
    · exact h.apart g hg x hx hmem
    · exact hnew' g hg hx
  · intro x
    rw [hlist, List.mem_append, List.mem_singleton]
    by_cases hx : x = c
    · subst hx
      rw [Function.update_self]
      exact ⟨fun _ => .inl (.inr rfl), fun _ => rfl⟩
    · rw [Function.update_of_ne hx, h.linked]
      simp [hx, Cond.enter]
  · rw [hlist, List.getLast?_concat]
    rfl
  · rw [hlist]
    show (if o.tail = none then some c else o.tail) = _
    split_ifs with hnone
    · rw [hempty.mp hnone]
      rfl
    · rw [List.head?_append_of_ne_nil _ fun hnil => hnone (hempty.mpr hnil), ← h.tail]
  · rw [hlist, hprev, h.head]
    have hnext : (o.enter c).next = Function.update o.next c (o.visited ++ o.queue).getLast? := by
      rw [← h.head]
      rfl
    rw [hnext]
    exact h.doubly.append hnodup
  · intro g hg
    rw [hprev]
    exact ((h.links g hg).update (hnew' g hg)).aside (hhead g hg)
  · intro g hg x hx hleaving
    have hxc : x ≠ c := fun heq => hnew' g hg (heq ▸ hx)
    have hstate : (o.enter c).state x = o.state x := Function.update_of_ne hxc ..
    rw [hstate] at hleaving
    exact (h.back g hg x hx hleaving).update fun hmem =>
      hnew' g hg (List.mem_reverse.mp hmem)

/-- A node is taken out: what is in lists afterwards. -/
theorem linked_erase (h : CondLists o st) (hvisited : c ∉ o.visited) {v : CondStage}
    (hv : v.linked = false) (x : C) :
    (Function.update st c v x).linked = true ↔
      x ∈ o.visited ++ o.queue.erase c ∨ ∃ g ∈ o.groups.map (·.erase c), x ∈ g := by
  by_cases hx : x = c
  · subst hx
    rw [Function.update_self, hv]
    refine iff_of_false Bool.false_ne_true ?_
    rintro (hmem | ⟨g, hg, hmem⟩)
    · rcases List.mem_append.mp hmem with hmem | hmem
      · exact hvisited hmem
      · exact (List.nodup_append.mp h.nodup).2.1.not_mem_erase hmem
    · obtain ⟨g', hg', rfl⟩ := List.mem_map.mp hg
      exact (nodup_of_flatten h.nodup_groups hg').not_mem_erase hmem
  · rw [Function.update_of_ne hx, h.linked, List.mem_append, List.mem_append,
      List.mem_erase_of_ne hx]
    simp only [List.mem_map, exists_exists_and_eq_and, List.mem_erase_of_ne hx]

/-- Groups without a node are still apart. -/
theorem erase_groups (h : CondLists o st) :
    (o.groups.map (·.erase c)).flatten.Nodup ∧
      ∀ g ∈ o.groups.map (·.erase c), ∀ x ∈ g, x ∉ o.visited ++ o.queue := by
  refine ⟨h.nodup_groups.sublist (flatten_erase_sublist c), fun g hg x hx => ?_⟩
  obtain ⟨g', hg', rfl⟩ := List.mem_map.mp hg
  exact h.apart g' hg' x (List.mem_of_mem_erase hx)

/-- Where a node is in the list, no group changes with it. -/
theorem groups_erase (hc : ∀ g ∈ o.groups, c ∉ g) :
    o.groups.map (·.erase c) = o.groups :=
  (List.map_congr_left fun g hg => List.erase_of_not_mem (hc g hg)).trans (List.map_id _)

/-- A node is taken out of the list of the condition variable. -/
theorem unlink_queue (h : CondLists o st) (hvisited : o.visited = []) (hc : c ∈ o.queue)
    {v : CondStage} (hv : v.linked = false) :
    CondLists (o.unlink c) (Function.update st c v) := by
  have hlinked := h.linked_erase (c := c) (by rw [hvisited]; exact List.not_mem_nil) hv
  have hnone : ∀ g ∈ o.groups, c ∉ g := fun g hg hmem =>
    h.apart g hg c hmem (List.mem_append_right _ hc)
  have hgroups := groups_erase hnone
  obtain ⟨hnodup, hdoubly, hhead, htail⟩ :
      o.queue.Nodup ∧ Doubly o.prev o.next o.queue ∧ o.head = o.queue.getLast? ∧
        o.tail = o.queue.head? := by
    have hqueue : o.visited ++ o.queue = o.queue := by rw [hvisited, List.nil_append]
    exact hqueue ▸ ⟨h.nodup, h.doubly, h.head, h.tail⟩
  have hapart : ∀ g ∈ o.groups, ∀ x ∈ g, x ∉ o.queue := fun g hg x hx hmem =>
    h.apart g hg x hx (List.mem_append_right _ hmem)
  have hin : ∀ a ∈ o.prev c, a ∈ o.queue := fun a ha => hdoubly.mem_of_prev hc ha
  have hin' : ∀ a ∈ o.next c, a ∈ o.queue := fun a ha => hdoubly.mem_of_next hc ha
  obtain ⟨s, t, hst⟩ := List.append_of_mem hc
  have hcs : c ∉ s := by
    rw [hst] at hnodup
    exact fun hs => (List.nodup_append.mp hnodup).2.2 c hs c List.mem_cons_self rfl
  have hlist : (o.unlink c).visited ++ (o.unlink c).queue = s ++ t := by
    show o.visited ++ o.queue.erase c = _
    rw [hvisited, List.nil_append, hst, List.erase_append_right _ hcs, List.erase_cons_head]
  rw [hst] at hnodup hdoubly hhead htail
  obtain ⟨hlast, hnext⟩ := hdoubly.unlink_last hnodup
  obtain ⟨hfirst, hprev⟩ := hdoubly.unlink_first hnodup
  rw [← hhead] at hlast hnext
  rw [← htail] at hfirst hprev
  replace hnext : (o.unlink c).next = aimed o.next (o.prev c) (o.next c) := hnext
  replace hprev : (o.unlink c).prev = aimed o.prev (o.next c) (o.prev c) := hprev
  constructor
  · rw [hlist]
    exact hnodup.sublist (List.Sublist.append_left (List.sublist_cons_self c t) s)
  · exact h.erase_groups.1
  · intro g hg x hx
    rw [hlist]
    refine fun hmem => hapart g (hgroups ▸ hg) x hx ?_
    rw [hst]
    exact List.Sublist.subset (List.Sublist.append_left (List.sublist_cons_self c t) s) hmem
  · exact hlinked
  · rw [hlist]
    exact hlast
  · rw [hlist]
    exact hfirst
  · rw [hlist, hprev, hnext]
    exact hdoubly.unlink hnodup
  · intro g hg
    replace hg : g ∈ o.groups := hgroups ▸ hg
    rw [hprev]
    exact (h.links g hg).aside fun a ha hmem => hapart g hg a hmem (hin' a ha)
  · intro g hg x hx hx'
    replace hg : g ∈ o.groups := hgroups ▸ hg
    rw [hnext]
    exact (h.back g hg x hx hx').aside fun a ha hmem =>
      hapart g hg a (List.mem_reverse.mp hmem) (hin a ha)

/-- A node is taken out of a group, by its own context. -/
theorem unlink_group (h : CondLists o st) (hvisited : o.visited = []) {g : List C}
    (hg : g ∈ o.groups) (hc : c ∈ g) (hleaving : o.state c = .leaving) {v : CondStage}
    (hv : v.linked = false) : CondLists (o.unlink c) (Function.update st c v) := by
  have hlinked := h.linked_erase (c := c) (by rw [hvisited]; exact List.not_mem_nil) hv
  have hout : c ∉ o.visited ++ o.queue := h.apart g hg c hc
  have hdoubly : Doubly o.prev o.next g := ⟨h.links g hg, h.back g hg c hc hleaving⟩
  have hgnodup := nodup_of_flatten h.nodup_groups hg
  have hhead : o.head ≠ some c := fun heq => hout (List.mem_of_mem_getLast? (h.head ▸ heq))
  have htail : o.tail ≠ some c := fun heq => hout (List.mem_of_mem_head? (h.tail ▸ heq))
  have hprev : (o.unlink c).prev = aimed o.prev (o.next c) (o.prev c) := if_neg htail
  have hnext : (o.unlink c).next = aimed o.next (o.prev c) (o.next c) := if_neg hhead
  have hlist : (o.unlink c).visited ++ (o.unlink c).queue = o.visited ++ o.queue := by
    show o.visited ++ o.queue.erase c = _
    rw [List.erase_of_not_mem fun hmem => hout (List.mem_append_right _ hmem)]
  have hin : ∀ a ∈ o.prev c, a ∈ g := fun a ha => hdoubly.mem_of_prev hc ha
  have hin' : ∀ a ∈ o.next c, a ∈ g := fun a ha => hdoubly.mem_of_next hc ha
  -- the group itself afterwards, and the others
  have hself : Doubly (o.unlink c).prev (o.unlink c).next (g.erase c) := by
    obtain ⟨s, t, rfl⟩ := List.append_of_mem hc
    have hcs : c ∉ s := fun hs => (List.nodup_append.mp hgnodup).2.2 c hs c List.mem_cons_self rfl
    rw [List.erase_append_right _ hcs, List.erase_cons_head, hprev, hnext]
    exact hdoubly.unlink hgnodup
  have hother : ∀ g' ∈ o.groups, g' ≠ g → g'.erase c = g' ∧ ∀ a ∈ g', a ∉ g := by
    intro g' hg' hne
    have hdisjoint : ∀ a ∈ g', a ∉ g := fun a ha hmem =>
      hne (group_unique h.nodup_groups hg' hg ha hmem)
    exact ⟨List.erase_of_not_mem fun hmem => hdisjoint c hmem hc, hdisjoint⟩
  constructor
  · rw [hlist]
    exact h.nodup
  · exact h.erase_groups.1
  · rw [hlist]
    exact h.erase_groups.2
  · exact hlinked
  · rw [hlist, ← h.head]
    exact if_neg hhead
  · rw [hlist, ← h.tail]
    exact if_neg htail
  · rw [hlist, hprev, hnext]
    exact ⟨h.doubly.forth.aside fun a ha hmem => h.apart g hg a (hin' a ha) hmem,
      h.doubly.back.aside fun a ha hmem => h.apart g hg a (hin a ha) (List.mem_reverse.mp hmem)⟩
  · intro g₁ hg₁
    obtain ⟨g', hg', rfl⟩ := List.mem_map.mp hg₁
    by_cases hne : g' = g
    · rw [hne]
      exact hself.forth
    · obtain ⟨hsame, hdisjoint⟩ := hother g' hg' hne
      rw [hsame, hprev]
      exact (h.links g' hg').aside fun a ha hmem => hdisjoint a hmem (hin' a ha)
  · intro g₁ hg₁ x hx hx'
    obtain ⟨g', hg', rfl⟩ := List.mem_map.mp hg₁
    by_cases hne : g' = g
    · rw [hne]
      exact hself.back
    · obtain ⟨hsame, hdisjoint⟩ := hother g' hg' hne
      rw [hsame] at hx ⊢
      rw [hnext]
      exact (h.back g' hg' x hx hx').aside fun a ha hmem =>
        hdisjoint a (List.mem_reverse.mp hmem) (hin a ha)

/-- The first of a group goes. -/
theorem gone (h : CondLists o st) {t : List C} (hg : c :: t ∈ o.groups)
    (hall : ∀ y ∈ t, o.state y ≠ .leaving) {v : CondStage} (hv : v.linked = false) :
    CondLists (o.gone c) (Function.update st c v) := by
  have hout : c ∉ o.visited ++ o.queue := h.apart _ hg c List.mem_cons_self
  have hlinked := h.linked_erase (c := c) (fun hmem => hout (List.mem_append_left _ hmem)) hv
  rw [List.erase_of_not_mem fun hmem => hout (List.mem_append_right _ hmem)] at hlinked
  -- a group without its first is what is left of it
  have hgroup : ∀ g ∈ o.groups, g.erase c = g ∨ g = c :: t ∧ g.erase c = t := by
    intro g' hg'
    by_cases hmem : c ∈ g'
    · have heq := group_unique h.nodup_groups hg' hg hmem List.mem_cons_self
      exact .inr ⟨heq, by rw [heq, List.erase_cons_head]⟩
    · exact .inl (List.erase_of_not_mem hmem)
  refine ⟨h.nodup, h.erase_groups.1, h.erase_groups.2, hlinked, h.head, h.tail, h.doubly,
    fun g₁ hg₁ => ?_, fun g₁ hg₁ x hx hx' => ?_⟩
  · obtain ⟨g', hg', rfl⟩ := List.mem_map.mp hg₁
    rcases hgroup g' hg' with hsame | ⟨rfl, hsame⟩
    · rw [hsame]
      exact h.links g' hg'
    · rw [hsame]
      exact (h.links _ hg').2
  · obtain ⟨g', hg', rfl⟩ := List.mem_map.mp hg₁
    rcases hgroup g' hg' with hsame | ⟨rfl, hsame⟩
    · rw [hsame] at hx ⊢
      exact h.back g' hg' x hx hx'
    · rw [hsame] at hx
      exact absurd hx' (hall x hx)

/-- **The list is split**: what the signaler has been through is a group. -/
theorem split (h : CondLists o st) : CondLists (o.split o.queue.head?) st := by
  obtain ⟨hnodup₁, hnodup₂, hapart⟩ := List.nodup_append.mp h.nodup
  have hcut : Doubly (o.split o.queue.head?).prev (o.split o.queue.head?).next o.visited ∧
      Doubly (o.split o.queue.head?).prev (o.split o.queue.head?).next o.queue := by
    have hdoubly := h.doubly
    cases hq : o.queue with
    | nil =>
      rw [hq, List.append_nil] at hdoubly
      exact ⟨hdoubly, trivial, trivial⟩
    | cons b q =>
      rw [hq] at hdoubly
      have hnext := hdoubly.next_eq
      have hpair := hdoubly.cut (hq ▸ h.nodup)
      rw [← hnext] at hpair
      exact hpair
  have hin : ∀ a ∈ o.queue.head?, a ∈ o.visited ++ o.queue := fun a ha =>
    List.mem_append_right _ (List.mem_of_mem_head? ha)
  -- what the pointers of other groups lead to is not in the list
  have hlinks : ∀ g ∈ o.groups, Links (o.split o.queue.head?).prev g none := by
    intro g hg
    cases hq : o.queue with
    | nil => exact h.links g hg
    | cons b q =>
      refine (h.links g hg).aside fun a ha hmem => h.apart g hg a hmem ?_
      exact h.doubly.mem_of_next (hin b (by rw [hq]; rfl)) ha
  constructor
  · exact hnodup₂
  · rw [show (o.split o.queue.head?).groups.flatten = o.visited ++ o.groups.flatten from rfl]
    refine List.nodup_append.mpr ⟨hnodup₁, h.nodup_groups, fun a ha b hb heq => ?_⟩
    obtain ⟨g, hg, hmem⟩ := List.mem_flatten.mp hb
    exact h.apart g hg b hmem (List.mem_append_left _ (heq ▸ ha))
  · intro g hg x hx hmem
    rcases List.mem_cons.mp hg with rfl | hg
    · exact hapart x hx x hmem rfl
    · exact h.apart g hg x hx (List.mem_append_right _ hmem)
  · intro x
    rw [h.linked]
    simp only [Cond.split, List.nil_append, List.mem_append, List.mem_cons, exists_eq_or_imp]
    tauto
  · show (if o.queue.head? = none then none else o.head) = o.queue.getLast?
    cases hq : o.queue with
    | nil => rfl
    | cons b q =>
      rw [if_neg (by simp), h.head, hq, List.getLast?_append]
      rfl
  · rfl
  · exact hcut.2
  · intro g hg
    rcases List.mem_cons.mp hg with rfl | hg
    · exact hcut.1.forth
    · exact hlinks g hg
  · intro g hg x hx hx'
    rcases List.mem_cons.mp hg with rfl | hg
    · exact hcut.1.back
    · exact (h.back g hg x hx hx').aside fun a ha hmem =>
        h.apart g hg a (List.mem_reverse.mp hmem) (hin a ha)

end CondLists

end OpenkalMusl
