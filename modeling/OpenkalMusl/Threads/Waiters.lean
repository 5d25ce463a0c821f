import OpenkalMusl.Threads.Broadcast

/-!
# What the steps of a condition variable keep

The lists, the groups and the counts of a condition variable under each step of a context that waits
for it or signals it, and where a context may be for the step.

## Main definitions

* `CondInv`: what holds of the nodes of the contexts and of the signalers

## Main results

* `CondInv.next`: it holds after an atomic step
-/

namespace OpenkalMusl

open Transition Chaining

/-! ## The lists, the groups and the counts -/

/-- What holds of the nodes of the contexts and of the signalers. -/
structure CondInv {C : Type*} [Fintype C] [DecidableEq C] (o : Cond C) (st : C → CondStage)
    (sg : C → SignalStage C) : Prop where
  lists : CondLists o st
  nodes : CondNodes o st
  groups : CondGroups o st sg
  refs : CondRefs o st sg

section Groups

variable {C : Type*} {o o' : Cond C} {st : C → CondStage} {sg : C → SignalStage C} {c : C}

/-- Nothing that signalers depend on is written. -/
theorem CondGroups.same (h : CondGroups o st sg)
    (hnode : o'.state = o.state ∧ o'.barrier = o.barrier ∧ o'.notify = o.notify)
    (hlists : o'.visited = o.visited ∧ o'.queue = o.queue ∧ o'.groups = o.groups) :
    CondGroups o' st sg := by
  have holdest : ∀ g, o'.oldest g = o.oldest g := fun g =>
    Cond.oldest_congr fun x _ => by rw [hnode.1]
  have hheld : ∀ x, HeldBack o' st x ↔ HeldBack o st x := fun x => by
    unfold HeldBack
    rw [hnode.2.1]
  constructor
  · rw [hlists.1, hlists.2.2]
    exact fun g hg => (h.groups g hg).frame (fun x _ => by rw [hnode.1])
      (fun x _ => by rw [hnode.2.1]) (fun x _ => by rw [hnode.2.2]) (fun _ _ => Iff.rfl)
      fun _ _ hs => hs
  · intro s p first hs
    rw [hlists.1, hlists.2.1, holdest, hnode.1, hnode.2.2]
    exact h.visits s p first hs
  · rw [hlists.1]
    exact h.unvisited
  · intro s x hs
    obtain ⟨hx, g, hg, hg'⟩ := h.first s x hs
    exact ⟨(hheld x).mpr hx, g, by rw [hlists.1, hlists.2.2]; exact hg, by rw [holdest]; exact hg'⟩
  · exact h.unique

end Groups

variable {C : Type*} [Fintype C] [DecidableEq C]

namespace CondInv

variable {o o' : Cond C} {st : C → CondStage} {sg : C → SignalStage C} {c : C}

/-- A step that only the lock, the mutex or nothing is affected by. -/
theorem same (h : CondInv o st sg)
    (hnode : o'.state = o.state ∧ o'.barrier = o.barrier ∧ o'.notify = o.notify)
    (hlists : o'.visited = o.visited ∧ o'.queue = o.queue ∧ o'.groups = o.groups)
    (hends : o'.head = o.head ∧ o'.tail = o.tail) (hpointers : o'.prev = o.prev ∧ o'.next = o.next)
    (href : o'.ref = o.ref) : CondInv o' st sg where
  lists := h.lists.frame (by rw [hlists.1, hlists.2.1]) hlists.2.2 hends hpointers
    fun _ _ x _ => by rw [hnode.1]
  nodes := h.nodes.frame (fun x => by rw [hnode.1, hnode.2.1, hnode.2.2]; exact ⟨rfl, rfl, rfl⟩)
    (fun x hx => hlists.2.1 ▸ hx) fun x hx => by rwa [hlists.1, hlists.2.1] at hx
  groups := h.groups.same hnode hlists
  refs := h.refs.frame (fun x s => by rw [hnode.2.2]) (fun s _ => by rw [href]) fun _ => rfl

/-- A context that was not in a list puts its node there. -/
theorem enter (h : CondInv o st sg) (hc : st c = .out)
    (hnobody : ∀ s p first, sg s ≠ .visits p first) :
    CondInv (o.enter c) (Function.update st c .waits) sg := by
  obtain ⟨hnew, hnew'⟩ := h.lists.not_mem_of_out (c := c) (by rw [hc]; rfl)
  refine ⟨h.lists.enter hc, h.nodes.enter, ?_, ?_⟩
  · refine h.groups.frame (c := c) ?_ (fun x hx => Function.update_of_ne hx ..) (fun x hx =>
      ⟨Function.update_of_ne hx .., Function.update_of_ne hx .., Function.update_of_ne hx ..⟩)
      ⟨rfl, rfl⟩ fun s p first hs => absurd hs (hnobody s p first)
    intro g hg
    rcases List.mem_cons.mp hg with rfl | hg
    · exact fun hmem => hnew (List.mem_append_left _ hmem)
    · exact hnew' g hg
  · refine h.refs.stage ?_ ?_ (fun x hx => Function.update_of_ne hx ..) rfl
    · rw [hc]
      simp
    · rw [hc]
      rintro (h | h) <;> cases h

/-- A context that nobody signaled stops waiting. -/
theorem leave (h : CondInv o st sg) (hc : st c = .waits) (hstate : o.state c = .waiting) :
    CondInv { o with state := Function.update o.state c .leaving }
      (Function.update st c .leaves) sg := by
  have hlinked : (st c).linked = true := by rw [hc]; rfl
  have hout : ∀ g ∈ o.visited :: o.groups, c ∉ g := fun g hg hmem =>
    (h.groups.groups g hg).states c hmem hstate
  have hqueue : c ∈ o.queue := by
    rcases (h.lists.linked c).mp hlinked with hmem | ⟨g, hg, hmem⟩
    · exact (List.mem_append.mp hmem).resolve_left (hout _ List.mem_cons_self)
    · exact absurd hmem (hout g (List.mem_cons_of_mem _ hg))
  have hnotify := (h.nodes.queue c hqueue).2
  have hlists : CondLists { o with state := Function.update o.state c .leaving } st := by
    refine h.lists.frame rfl rfl ⟨rfl, rfl⟩ ⟨rfl, rfl⟩ fun g hg x hx => ?_
    have hxc : x ≠ c := fun heq => hout g (List.mem_cons_of_mem _ hg) (heq ▸ hx)
    exact Function.update_of_ne hxc ..
  refine ⟨hlists.stage (by rw [hc]; rfl), h.nodes.leave, ?_, ?_⟩
  · refine h.groups.frame hout (fun x hx => Function.update_of_ne hx ..)
      (fun x hx => ⟨Function.update_of_ne hx .., rfl, rfl⟩) ⟨rfl, rfl⟩ fun s p first _ =>
        ⟨rfl, fun _ hs => ?_⟩
    rw [show _ = some s from hs] at hnotify
    cases hnotify
  · refine h.refs.stage ?_ ?_ (fun x _ => rfl) rfl
    · rw [hc]
      simp [hnotify]
    · rw [hc]
      rintro (h | h) <;> cases h

/-- A context that was signaled stops waiting. -/
theorem behind (h : CondInv o st sg) (hc : st c = .waits) (hstate : o.state c ≠ .waiting) :
    CondInv o (Function.update st c .behind) sg := by
  have hsignaled : o.state c = .signaled := by
    cases hs : o.state c with
    | waiting => exact absurd hs hstate
    | signaled => rfl
    | leaving => exact absurd hs (h.nodes.waits c hc)
  refine ⟨h.lists.stage (by rw [hc]; rfl), ?_, ?_, ?_⟩
  · exact h.nodes.stage nofun (fun h => by rcases h with h | h <;> cases h) (fun _ => hsignaled)
      fun _ => nofun
  · exact h.groups.stage (fun h => by rcases h with h | h <;> cases h) (by rw [hc]; simp)
  · refine h.refs.stage ?_ ?_ (fun x _ => rfl) rfl
    · rw [hc]
      simp
    · rw [hc]
      rintro (h | h) <;> cases h

/-- A context takes its node out. -/
theorem unlink (h : CondInv o st sg) (hc : st c = .leaves)
    (hnobody : ∀ s p first, sg s ≠ .visits p first) :
    CondInv (o.unlink c) (Function.update st c .left) sg := by
  have hvisited := h.groups.unvisited hnobody
  have hleaving := h.nodes.leaves c (.inl hc)
  have hlinked : (st c).linked = true := by rw [hc]; rfl
  refine ⟨?_, ?_, ?_, ?_⟩
  · rcases (h.lists.linked c).mp hlinked with hmem | ⟨g, hg, hmem⟩
    · rw [hvisited, List.nil_append] at hmem
      exact h.lists.unlink_queue hvisited hmem rfl
    · exact h.lists.unlink_group hvisited hg hmem hleaving rfl
  · have hstage := h.nodes.stage (c := c) (v := .left) nofun (fun _ => hleaving)
      (fun h => by rcases h with h | h <;> cases h) fun _ => nofun
    refine hstage.frame (fun _ => ⟨rfl, rfl, rfl⟩) (fun x hx => List.mem_of_mem_erase hx)
      fun x hx => ?_
    rcases List.mem_append.mp hx with hx | hx
    · exact List.mem_append_left _ hx
    · exact List.mem_append_right _ (List.mem_of_mem_erase hx)
  · exact (h.groups.unlink hnobody hleaving).stage (fun _ => .inl hc) (by rw [hc]; simp)
  · refine h.refs.stage ?_ (fun _ => rfl) (fun x _ => rfl) rfl
    rw [hc]
    simp [Cond.unlink]

/-- A context that has left is done, where there is nobody to tell. -/
theorem left (h : CondInv o st sg) (hc : st c = .left) (hnotify : o.notify c = none) :
    CondInv o (Function.update st c .out) sg := by
  refine ⟨h.lists.stage (by rw [hc]; rfl), ?_, ?_, ?_⟩
  · exact h.nodes.stage nofun (fun h => by rcases h with h | h <;> cases h)
      (fun h => by rcases h with h | h <;> cases h) fun _ => nofun
  · exact h.groups.stage (fun h => by rcases h with h | h <;> cases h) (by rw [hc]; simp)
  · refine h.refs.stage ?_ (fun _ => rfl) (fun x _ => rfl) rfl
    simp [hnotify]

/-- A context that has left tells its signaler. -/
theorem tell (h : CondInv o st sg) (hc : st c = .left) {s : C} (hs : o.notify c = some s) :
    CondInv { o with ref := Function.update o.ref s (o.ref s - 1) }
      (Function.update st c .out) sg := by
  refine ⟨?_, ?_, ?_, (h.refs.tell hc hs).2⟩
  · exact (h.lists.stage (v := .out) (by rw [hc]; rfl)).frame rfl rfl ⟨rfl, rfl⟩ ⟨rfl, rfl⟩
      fun _ _ _ _ => rfl
  · exact (h.nodes.stage (v := .out) nofun (fun h => by rcases h with h | h <;> cases h)
      (fun h => by rcases h with h | h <;> cases h) fun _ => nofun).frame
      (fun _ => ⟨rfl, rfl, rfl⟩) (fun _ hx => hx) fun _ hx => hx
  · exact (h.groups.stage (v := .out) (fun h => by rcases h with h | h <;> cases h)
      (by rw [hc]; simp)).same ⟨rfl, rfl, rfl⟩ ⟨rfl, rfl, rfl⟩

/-- The barrier of a context that is behind it is closed or open. -/
theorem barrier_of_behind (h : CondInv o st sg) (hc : st c = .behind) :
    o.barrier c = 2 ∨ o.barrier c = 0 := by
  by_cases hheld : HeldBack o st c
  · exact .inl hheld.1
  · obtain ⟨t, hg, -⟩ := h.groups.of_not_held h.lists h.nodes (by rw [hc]; rfl) hheld
    refine .inr ((((h.groups.groups _ (List.mem_cons_of_mem _ hg)).first c rfl).resolve_left
      hheld).1.resolve_right ?_)
    rw [hc]
    exact nofun

/-- A context gets past its barrier. -/
theorem take (h : CondInv o st sg) (hc : st c = .behind) (hopen : o.barrier c = 0) (b : ℕ) :
    CondInv { o with barrier := Function.update o.barrier c b }
      (Function.update st c .took) sg := by
  have hnot : ¬HeldBack o st c := fun hheld => by
    have := hheld.1
    omega
  have hout : c ∉ o.visited ++ o.queue := fun hmem => hnot (h.nodes.held c hmem)
  refine ⟨?_, ?_, h.groups.take h.lists h.nodes hc hopen b, ?_⟩
  · exact (h.lists.stage (v := .took) (by rw [hc]; rfl)).frame rfl rfl ⟨rfl, rfl⟩ ⟨rfl, rfl⟩
      fun _ _ _ _ => rfl
  · exact (h.nodes.barrier hout).stage nofun (fun h => by rcases h with h | h <;> cases h)
      (fun _ => h.nodes.behind c (.inl hc)) fun hmem => absurd hmem hout
  · refine h.refs.stage ?_ ?_ (fun x _ => rfl) rfl
    · rw [hc]
      simp
    · rw [hc]
      rintro (h | h) <;> cases h

/-- The rest of the group of a context that is past its barrier. -/
theorem group_of_took (h : CondInv o st sg) (hc : st c = .took) :
    ∃ t, c :: t ∈ o.groups ∧ (∀ y ∈ c :: t, o.state y = .signaled) ∧ o.prev c = t.head? := by
  obtain ⟨t, hg, hall⟩ := h.groups.of_not_held h.lists h.nodes (by rw [hc]; rfl)
    fun hheld => hheld.2 hc
  refine ⟨t, hg, hall, ?_⟩
  rw [(h.lists.links _ hg).1, Option.or_none]

/-- A context goes, and the next of its group, if there is one, gets past its barrier. -/
theorem gone (h : CondInv o st sg) {t : List C} (hc : st c = .took) (hg : c :: t ∈ o.groups)
    (hall : ∀ y ∈ c :: t, o.state y = .signaled)
    (hsame : o'.state = o.state ∧ o'.notify = o.notify ∧ o'.ref = o.ref)
    (hends : o'.head = o.head ∧ o'.tail = o.tail) (hpointers : o'.prev = o.prev ∧ o'.next = o.next)
    (hlists : o'.visited = o.visited ∧ o'.queue = o.queue ∧ o'.groups = o.groups.map (·.erase c))
    (hkept : ∀ x, x ∉ t.head? → o'.barrier x = o.barrier x)
    (hopen : ∀ x ∈ t.head?, o'.barrier x = 0) :
    CondInv o' (Function.update st c .out) sg := by
  have hout : ∀ x ∈ c :: t, x ∉ o.visited ++ o.queue := h.lists.apart _ hg
  refine ⟨?_, ?_, ?_, ?_⟩
  · refine (h.lists.gone (v := .out) hg (fun y hy hy' => ?_) rfl).frame ?_ hlists.2.2 hends
      hpointers fun _ _ x _ => by rw [hsame.1]; rfl
    · rw [hall y (List.mem_cons_of_mem c hy)] at hy'
      cases hy'
    · rw [hlists.1, hlists.2.1]
      rfl
  · have hstage := h.nodes.stage (c := c) (v := .out) nofun
      (fun h => by rcases h with h | h <;> cases h) (fun h => by rcases h with h | h <;> cases h)
      fun _ => nofun
    refine ⟨?_, ?_, ?_, ?_, ?_⟩
    · rw [hsame.1]
      exact hstage.waits
    · rw [hsame.1]
      exact hstage.leaves
    · rw [hsame.1]
      exact hstage.behind
    · rw [hsame.1, hsame.2.1, hlists.2.1]
      exact hstage.queue
    · rw [hlists.1, hlists.2.1]
      intro x hx
      have hxt : x ∉ t.head? := fun hmem =>
        hout x (List.mem_cons_of_mem c (List.mem_of_mem_head? hmem)) hx
      exact ⟨(hkept x hxt).trans (hstage.held x hx).1, (hstage.held x hx).2⟩
  · exact h.groups.gone h.lists hc hg hall ⟨hsame.1, hsame.2.1⟩ hlists hkept hopen
  · refine h.refs.stage ?_ ?_ (fun x _ => by rw [hsame.2.1]) hsame.2.2
    · rw [hc]
      simp
    · rw [hc]
      rintro (h | h) <;> cases h

/-- A signaler starts. -/
theorem begin (h : CondInv o st sg) (hc : sg c = .none)
    (hnobody : ∀ s p first, sg s ≠ .visits p first) :
    CondInv { o with ref := Function.update o.ref c 0 } st
      (Function.update sg c (.visits o.tail none)) := by
  have hvisited := h.groups.unvisited hnobody
  have htail : o.tail = o.queue.head? := by
    rw [h.lists.tail, hvisited, List.nil_append]
  have hcounting : (sg c).counting = false := by
    rw [hc]
    rfl
  refine ⟨h.lists.frame rfl rfl ⟨rfl, rfl⟩ ⟨rfl, rfl⟩ fun _ _ _ _ => rfl,
    h.nodes.frame (fun _ => ⟨rfl, rfl, rfl⟩) (fun _ hx => hx) fun _ hx => hx, ?_,
    h.refs.begin hcounting o.tail⟩
  rw [htail]
  refine h.groups.begin hnobody (by rw [hc]; rfl) (fun y hy hs => ?_) ⟨rfl, rfl, rfl⟩
    ⟨rfl, rfl, rfl⟩
  rw [h.refs.notify y c hy hs] at hcounting
  cases hcounting

/-- The walk of a signaler is at the oldest node that it has not been through. -/
theorem at_head (h : CondInv o st sg) {x : C} {first : Option C}
    (hc : sg c = .visits (some x) first) :
    ∃ q, o.queue = x :: q ∧ o.prev x = q.head? ∧ o.next x = o.visited.getLast? := by
  obtain ⟨hp, -⟩ := h.groups.visits c _ _ hc
  obtain ⟨q, hq⟩ := List.head?_eq_some_iff.mp hp.symm
  have hdoubly := h.lists.doubly
  rw [hq] at hdoubly
  exact ⟨q, hq, hdoubly.prev_eq, hdoubly.next_eq⟩

/-- A signaler signals a node. -/
theorem signals (h : CondInv o st sg) {x : C} {first : Option C}
    (hc : sg c = .visits (some x) first) (hothers : ∀ s ≠ c, ∀ p first, sg s ≠ .visits p first)
    (hstate : o.state x = .waiting) :
    CondInv (o.signals x) st
      (Function.update sg c (.visits (o.prev x) (first.or (some x)))) := by
  obtain ⟨q, hq, hprev, -⟩ := h.at_head hc
  have hlist : (o.signals x).visited ++ (o.signals x).queue = o.visited ++ o.queue := by
    show o.visited ++ [x] ++ o.queue.tail = _
    rw [hq, List.append_assoc, List.singleton_append, List.tail_cons]
  have hqueue : (o.signals x).queue = q := by
    show o.queue.tail = q
    rw [hq, List.tail_cons]
  have hself : (o.signals x).state x = .signaled := Function.update_self ..
  have hrefs : CondRefs (o.signals x) st sg :=
    h.refs.frame (fun _ _ => Iff.rfl) (fun _ _ => rfl) fun _ => rfl
  have hgroups : ∀ g ∈ o.groups, ∀ y ∈ g, y ≠ x := fun g hg y hy heq =>
    h.lists.apart g hg y hy (by rw [hq, heq]; simp)
  refine ⟨?_, h.nodes.signals hq h.lists.nodup hstate, ?_, ?_⟩
  · exact h.lists.frame hlist rfl ⟨rfl, rfl⟩ ⟨rfl, rfl⟩ fun g hg y hy =>
      Function.update_of_ne (hgroups g hg y hy) ..
  · rw [hprev]
    refine h.groups.walk h.lists h.nodes hc hothers hq
      (fun y hy => ⟨Function.update_of_ne hy .., rfl⟩) rfl ⟨rfl, hqueue, rfl⟩ ?_ ?_ ?_
    · rw [hself]
      exact nofun
    · rw [hself]
      exact nofun
    · unfold Cond.oldest
      rw [List.find?_cons_of_pos (by simpa using hself)]
  · exact hrefs.goes (by rw [hc]; rfl)

/-- A signaler counts a node whose context is leaving. -/
theorem counts (h : CondInv o st sg) {x : C} {first : Option C}
    (hc : sg c = .visits (some x) first) (hothers : ∀ s ≠ c, ∀ p first, sg s ≠ .visits p first)
    (hstate : o.state x ≠ .waiting) :
    CondInv (o.counts c x) st (Function.update sg c (.visits (o.prev x) first)) := by
  obtain ⟨q, hq, hprev, -⟩ := h.at_head hc
  have hlist : (o.counts c x).visited ++ (o.counts c x).queue = o.visited ++ o.queue := by
    show o.visited ++ [x] ++ o.queue.tail = _
    rw [hq, List.append_assoc, List.singleton_append, List.tail_cons]
  have hqueue : (o.counts c x).queue = q := by
    show o.queue.tail = q
    rw [hq, List.tail_cons]
  have hxq : x ∈ o.queue := by
    rw [hq]
    exact List.mem_cons_self
  obtain ⟨hsignaled, hnotify⟩ := h.nodes.queue x hxq
  have hleaving : o.state x = .leaving := by
    cases hs : o.state x with
    | waiting => exact absurd hs hstate
    | signaled => exact absurd hs hsignaled
    | leaving => rfl
  have hlinked := (h.lists.linked x).mpr (.inl (List.mem_append_right _ hxq))
  refine ⟨?_, h.nodes.counts hq h.lists.nodup, ?_, ?_⟩
  · exact h.lists.frame hlist rfl ⟨rfl, rfl⟩ ⟨rfl, rfl⟩ fun _ _ _ _ => rfl
  · rw [hprev]
    refine h.groups.walk h.lists h.nodes hc hothers hq
      (fun y hy => ⟨rfl, Function.update_of_ne hy ..⟩) rfl ⟨rfl, hqueue, rfl⟩ hstate
      (fun _ => Function.update_self ..) ?_
    have hnot : (o.counts c x).state x ≠ .signaled := hsignaled
    unfold Cond.oldest
    rw [List.find?_cons_of_neg (by simpa using hnot)]
    exact Option.or_none.symm
  · refine h.refs.counts ?_ (h.nodes.leaves_of_leaving hlinked hleaving) hnotify rfl
    rw [hc]
    rfl

/-- A signaler splits the list. -/
theorem split (h : CondInv o st sg) {p first : Option C} (hc : sg c = .visits p first)
    (hothers : ∀ s ≠ c, ∀ p first, sg s ≠ .visits p first) :
    CondInv (o.split p) st (Function.update sg c (.counts first)) := by
  obtain ⟨hp, -⟩ := h.groups.visits c p first hc
  have hrefs : CondRefs (o.split p) st sg :=
    h.refs.frame (fun _ _ => Iff.rfl) (fun _ _ => rfl) fun _ => rfl
  refine ⟨?_, ?_, h.groups.split hc hothers, hrefs.goes (by rw [hc]; rfl)⟩
  · rw [hp]
    exact h.lists.split
  · exact h.nodes.frame (fun _ => ⟨rfl, rfl, rfl⟩) (fun _ hx => hx)
      fun _ hx => List.mem_append_right _ hx

/-- A signaler sees that nobody is left to tell it. -/
theorem settle (h : CondInv o st sg) {first : Option C} (hc : sg c = .counts first)
    (hzero : o.ref c = 0) : CondInv o st (Function.update sg c (.frees first)) := by
  refine ⟨h.lists, h.nodes, ?_, h.refs.settle (by rw [hc]; rfl) hzero rfl⟩
  refine h.groups.settle (by rw [hc]; rfl) ?_ nofun
  rw [hc]
  exact nofun

/-- Nobody tells a signaler that is done counting. -/
theorem done (h : CondInv o st sg) {first : Option C} (hc : sg c = .frees first) :
    ∀ y, st y = .leaves ∨ st y = .left → o.notify y ≠ some c := by
  intro y hy hs
  have hcounting := h.refs.notify y c hy hs
  rw [hc] at hcounting
  cases hcounting

theorem free_none (h : CondInv o st sg) (hc : sg c = .frees none) :
    CondInv o st (Function.update sg c .none) :=
  ⟨h.lists, h.nodes, h.groups.free_none h.lists h.nodes hc (h.done hc),
    h.refs.goes (by rw [hc]; rfl)⟩

/-- A signaler opens the barrier of its first. -/
theorem free_some (h : CondInv o st sg) {x : C} (hc : sg c = .frees (some x)) :
    CondInv (o.opened x) st (Function.update sg c .none) := by
  obtain ⟨t, hg, -⟩ := h.groups.group_of_frees h.lists h.nodes hc (h.done hc)
  have hout := h.lists.apart _ hg x List.mem_cons_self
  have hrefs : CondRefs (o.opened x) st sg :=
    h.refs.frame (fun _ _ => Iff.rfl) (fun _ _ => rfl) fun _ => rfl
  refine ⟨?_, h.nodes.barrier hout, h.groups.free_some h.lists h.nodes hc (h.done hc),
    hrefs.goes (by rw [hc]; rfl)⟩
  exact h.lists.frame rfl rfl ⟨rfl, rfl⟩ ⟨rfl, rfl⟩ fun _ _ _ _ => rfl

end CondInv

/-! ## One step -/

/-- A step of `lock` on a word that is not marked as taken without waiters takes it or leaves it. -/
theorem LockAt.next_of_ne_one {a : LockAt} {word : ℕ} (h : word ≠ 1) :
    ((a.next word).2 = none → word = 0) ∧
      ∀ a', (a.next word).2 = some a' → (a.next word).1 = word := by
  cases a with
  | cas =>
    unfold LockAt.next
    split_ifs with hzero
    · exact ⟨fun _ => hzero, nofun⟩
    · exact ⟨nofun, fun _ _ => rfl⟩
  | mark => exact ⟨nofun, fun _ _ => if_neg h⟩
  | wait w => exact ⟨nofun, fun _ _ => rfl⟩
  | take =>
    unfold LockAt.next
    split_ifs with hzero
    · exact ⟨fun _ => hzero, nofun⟩
    · exact ⟨nofun, fun _ _ => rfl⟩

namespace CondPc

/-- Between taking the lock of the condition variable and giving it up. -/
def holding : CondPc C → ℕ
  | .crit _ | .visit _ _ _ | .unlock _ => 1
  | _ => 0

end CondPc

open CondPc in
/-- **The step of a context**, while nobody else holds the lock where it does. -/
theorem CondInv.next {o : Cond C} {st : C → CondStage} {sg : C → SignalStage C} {c : C}
    {pc : CondPc C} {w : Cond C × CondPc C} (h : CondInv o st sg) (hst : st c = pc.stage)
    (hsg : sg c = pc.signals)
    (halone : pc.holding = 1 → ∀ s ≠ c, ∀ p first, sg s ≠ .visits p first)
    (hw : pc.next o c = some w) :
    CondInv w.1 (Function.update st c w.2.stage) (Function.update sg c w.2.signals) := by
  -- where the context is neither in a list nor signals differently
  have hgoto : ∀ {o' : Cond C} {pc' : CondPc C}, CondInv o' st sg → pc'.stage = pc.stage →
      pc'.signals = pc.signals →
        CondInv o' (Function.update st c pc'.stage) (Function.update sg c pc'.signals) := by
    intro o' pc' h' hstage hsignals
    rw [hstage, ← hst, hsignals, ← hsg, Function.update_eq_self, Function.update_eq_self]
    exact h'
  have hsigs : ∀ {o' : Cond C} {v : CondStage} {pc' : CondPc C},
      CondInv o' (Function.update st c v) sg → pc'.stage = v → pc'.signals = pc.signals →
        CondInv o' (Function.update st c pc'.stage) (Function.update sg c pc'.signals) := by
    intro o' v pc' h' hstage hsignals
    rw [hstage, hsignals, ← hsg, Function.update_eq_self]
    exact h'
  have hstages : ∀ {o' : Cond C} {v : SignalStage C} {pc' : CondPc C},
      CondInv o' st (Function.update sg c v) → pc'.signals = v → pc'.stage = pc.stage →
        CondInv o' (Function.update st c pc'.stage) (Function.update sg c pc'.signals) := by
    intro o' v pc' h' hsignals hstage
    rw [hstage, ← hst, hsignals, Function.update_eq_self]
    exact h'
  have hnobody : pc.holding = 1 → (∀ p first, pc.signals ≠ .visits p first) →
      ∀ s p first, sg s ≠ .visits p first := by
    intro hheld hself s p first hs
    by_cases hsc : s = c
    · rw [hsc, hsg] at hs
      exact hself p first hs
    · exact halone hheld s hsc p first hs
  cases pc with
  | idle => cases hw
  | unlockWake d => cases hw
  | parked => cases hw
  | notifyWake e s => cases hw
  | passWake e x => cases hw
  | returned e => cases hw
  | freeWake x => cases hw
  | lock k at_ =>
    simp only [CondPc.next, Option.ite_none_left_eq_some, Option.some.injEq] at hw
    obtain ⟨-, rfl⟩ := hw
    have h' : CondInv { o with lock := (at_.next o.lock).1 } st sg :=
      h.same ⟨rfl, rfl, rfl⟩ ⟨rfl, rfl, rfl⟩ ⟨rfl, rfl⟩ ⟨rfl, rfl⟩ rfl
    cases (at_.next o.lock).2 <;> cases k <;> exact hgoto h' rfl rfl
  | crit k =>
    cases k with
    | enter =>
      obtain rfl := Option.some.inj hw
      exact hsigs (h.enter hst (hnobody rfl nofun)) rfl rfl
    | unlink e =>
      obtain rfl := Option.some.inj hw
      exact hsigs (h.unlink hst (hnobody rfl nofun)) rfl rfl
    | signal n =>
      obtain rfl := Option.some.inj hw
      exact hstages (h.begin hsg (hnobody rfl nofun)) rfl rfl
  | visit n p first =>
    cases p with
    | none =>
      obtain rfl := Option.some.inj hw
      exact hstages (h.split hsg (halone rfl)) rfl rfl
    | some x =>
      obtain rfl := Option.some.inj hw
      split_ifs with hn hstate
      · exact hstages (h.split hsg (halone rfl)) rfl rfl
      · exact hstages (h.signals hsg (halone rfl) hstate) rfl rfl
      · exact hstages (h.counts hsg (halone rfl) hstate) rfl rfl
  | unlock d =>
    obtain rfl := Option.some.inj hw
    have h' : CondInv { o with lock := 0 } st sg :=
      h.same ⟨rfl, rfl, rfl⟩ ⟨rfl, rfl, rfl⟩ ⟨rfl, rfl⟩ ⟨rfl, rfl⟩ rfl
    split_ifs <;> cases d <;> exact hgoto h' rfl rfl
  | release =>
    obtain rfl := Option.some.inj hw
    exact hgoto (h.same ⟨rfl, rfl, rfl⟩ ⟨rfl, rfl, rfl⟩ ⟨rfl, rfl⟩ ⟨rfl, rfl⟩ rfl) rfl rfl
  | park =>
    obtain rfl := Option.some.inj hw
    split_ifs <;> exact hgoto h rfl rfl
  | test e =>
    obtain rfl := Option.some.inj hw
    split_ifs <;> exact hgoto h rfl rfl
  | leave e =>
    obtain rfl := Option.some.inj hw
    split_ifs with hstate
    · exact hsigs (h.leave hst hstate) rfl rfl
    · exact hsigs (h.behind hst hstate) rfl rfl
  | notify e =>
    obtain rfl := Option.some.inj hw
    split
    · next hnone => exact hsigs (h.left hst hnone) rfl rfl
    · next s hs => split_ifs <;> exact hsigs (h.tell hst hs) rfl rfl
  | barrier e at_ =>
    simp only [CondPc.next, Option.ite_none_left_eq_some, Option.some.injEq] at hw
    obtain ⟨-, rfl⟩ := hw
    have hword : o.barrier c ≠ 1 := by
      have := h.barrier_of_behind hst
      omega
    obtain ⟨htaken, hkept⟩ := LockAt.next_of_ne_one (a := at_) hword
    cases hat : (at_.next (o.barrier c)).2 with
    | none => exact hsigs (h.take hst (htaken hat) _) rfl rfl
    | some at' =>
      rw [hkept at' hat, Function.update_eq_self]
      exact hgoto h rfl rfl
  | relock e signaled =>
    simp only [CondPc.next, Option.ite_none_right_eq_some, Option.some.injEq] at hw
    obtain ⟨-, rfl⟩ := hw
    have h' : CondInv { o with owner := some c } st sg :=
      h.same ⟨rfl, rfl, rfl⟩ ⟨rfl, rfl, rfl⟩ ⟨rfl, rfl⟩ ⟨rfl, rfl⟩ rfl
    cases signaled <;> exact hgoto h' rfl rfl
  | pass e =>
    obtain rfl := Option.some.inj hw
    obtain ⟨t, hg, hall, hprev⟩ := h.group_of_took hst
    split
    · next hnone =>
      have ht : t.head? = none := hprev.symm.trans hnone
      refine hsigs (h.gone hst hg hall ⟨rfl, rfl, rfl⟩ ⟨rfl, rfl⟩ ⟨rfl, rfl⟩ ⟨rfl, rfl, rfl⟩
        (fun _ _ => rfl) fun x hx => ?_) rfl rfl
      rw [ht] at hx
      cases hx
    · next x hx =>
      have ht : t.head? = some x := hprev.symm.trans hx
      refine hsigs (h.gone hst hg hall ⟨rfl, rfl, rfl⟩ ⟨rfl, rfl⟩ ⟨rfl, rfl⟩ ⟨rfl, rfl, rfl⟩
        (fun y hy => ?_) fun y hy => ?_) rfl rfl
      · exact Function.update_of_ne (fun heq => hy (by rw [ht, heq]; rfl)) ..
      · rw [ht] at hy
        obtain rfl := Option.some.inj hy
        exact Function.update_self ..
  | watch first =>
    obtain rfl := Option.some.inj hw
    split_ifs with hzero
    · exact hstages (h.settle hsg hzero) rfl rfl
    · exact hgoto h rfl rfl
  | watching first cur at_ =>
    simp only [CondPc.next, Option.ite_none_left_eq_some, Option.some.injEq] at hw
    obtain ⟨-, rfl⟩ := hw
    cases at_.next (o.ref c) cur <;> exact hgoto h rfl rfl
  | free first =>
    cases first with
    | none =>
      obtain rfl := Option.some.inj hw
      exact hstages (h.free_none hsg) rfl rfl
    | some x =>
      obtain rfl := Option.some.inj hw
      split_ifs <;> exact hstages (h.free_some hsg) rfl rfl

end OpenkalMusl
