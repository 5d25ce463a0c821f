import OpenkalMusl.Threads.Signalling

/-!
# The groups of a condition variable

What each step of a context does to what is written on the nodes, to the groups that signalers have
taken off the list, and to the counts of those that leave.
-/

namespace OpenkalMusl

open Transition Chaining

variable {C : Type*} {o o' : Cond C} {st st' : C → CondStage} {sg sg' : C → SignalStage C} {c : C}

/-! ## What is written on the nodes -/

namespace CondNodes

/-- Something is done to one node. -/
theorem step (h : CondNodes o st) (c : C) (hstage : ∀ x ≠ c, st' x = st x)
    (hnode : ∀ x ≠ c, o'.state x = o.state x ∧ o'.barrier x = o.barrier x ∧
      o'.notify x = o.notify x)
    (hqueue : ∀ x ∈ o'.queue, x ≠ c → x ∈ o.queue)
    (hlist : ∀ x ∈ o'.visited ++ o'.queue, x ≠ c → x ∈ o.visited ++ o.queue)
    (hwaits : st' c = .waits → o'.state c ≠ .leaving)
    (hleaves : st' c = .leaves ∨ st' c = .left → o'.state c = .leaving)
    (hbehind : st' c = .behind ∨ st' c = .took → o'.state c = .signaled)
    (hqueue' : c ∈ o'.queue → o'.state c ≠ .signaled ∧ o'.notify c = none)
    (hheld : c ∈ o'.visited ++ o'.queue → HeldBack o' st' c) : CondNodes o' st' := by
  constructor
  · intro x hx
    by_cases hxc : x = c
    · subst hxc
      exact hwaits hx
    · rw [(hnode x hxc).1]
      exact h.waits x (hstage x hxc ▸ hx)
  · intro x hx
    by_cases hxc : x = c
    · subst hxc
      exact hleaves hx
    · rw [(hnode x hxc).1]
      exact h.leaves x (hstage x hxc ▸ hx)
  · intro x hx
    by_cases hxc : x = c
    · subst hxc
      exact hbehind hx
    · rw [(hnode x hxc).1]
      exact h.behind x (hstage x hxc ▸ hx)
  · intro x hx
    by_cases hxc : x = c
    · subst hxc
      exact hqueue' hx
    · rw [(hnode x hxc).1, (hnode x hxc).2.2]
      exact h.queue x (hqueue x hx hxc)
  · intro x hx
    by_cases hxc : x = c
    · subst hxc
      exact hheld hx
    · unfold HeldBack
      rw [(hnode x hxc).2.1, hstage x hxc]
      exact h.held x (hlist x hx hxc)

/-- Nothing is written on the nodes. -/
theorem frame (h : CondNodes o st)
    (hnode : ∀ x, o'.state x = o.state x ∧ o'.barrier x = o.barrier x ∧ o'.notify x = o.notify x)
    (hqueue : ∀ x ∈ o'.queue, x ∈ o.queue)
    (hlist : ∀ x ∈ o'.visited ++ o'.queue, x ∈ o.visited ++ o.queue) : CondNodes o' st := by
  refine ⟨fun x hx => ?_, fun x hx => ?_, fun x hx => ?_, fun x hx => ?_, fun x hx => ?_⟩
  · rw [(hnode x).1]
    exact h.waits x hx
  · rw [(hnode x).1]
    exact h.leaves x hx
  · rw [(hnode x).1]
    exact h.behind x hx
  · rw [(hnode x).1, (hnode x).2.2]
    exact h.queue x (hqueue x hx)
  · unfold HeldBack
    rw [(hnode x).2.1]
    exact h.held x (hlist x hx)

/-- A node in a list whose context is leaving is still to be taken out. -/
theorem leaves_of_leaving (h : CondNodes o st) {y : C} (hy : (st y).linked = true)
    (hleaving : o.state y = .leaving) : st y = .leaves := by
  cases hst : st y with
  | out => rw [hst] at hy; cases hy
  | waits => exact absurd hleaving (h.waits y hst)
  | leaves => rfl
  | left => rw [hst] at hy; cases hy
  | behind => rw [h.behind y (.inl hst)] at hleaving; cases hleaving
  | took => rw [h.behind y (.inr hst)] at hleaving; cases hleaving

variable [DecidableEq C]

theorem enter (h : CondNodes o st) : CondNodes (o.enter c) (Function.update st c .waits) := by
  have hqueue : ∀ x ∈ (o.enter c).queue, x ≠ c → x ∈ o.queue := by
    intro x hx hxc
    rcases List.mem_append.mp hx with hx | hx
    · exact hx
    · exact absurd (List.mem_singleton.mp hx) hxc
  refine h.step c (fun x hx => Function.update_of_ne hx ..) (fun x hx =>
    ⟨Function.update_of_ne hx .., Function.update_of_ne hx .., Function.update_of_ne hx ..⟩)
    hqueue ?_ ?_ ?_ ?_ ?_ ?_
  · intro x hx hxc
    rcases List.mem_append.mp hx with hx | hx
    · exact List.mem_append_left _ hx
    · exact List.mem_append_right _ (hqueue x hx hxc)
  · intro _
    rw [show (o.enter c).state c = .waiting from Function.update_self ..]
    decide
  · rw [Function.update_self]
    rintro (h | h) <;> cases h
  · rw [Function.update_self]
    rintro (h | h) <;> cases h
  · intro _
    rw [show (o.enter c).state c = .waiting from Function.update_self ..]
    exact ⟨by decide, Function.update_self ..⟩
  · intro _
    refine ⟨Function.update_self .., ?_⟩
    rw [Function.update_self]
    decide

theorem leave (h : CondNodes o st) :
    CondNodes { o with state := Function.update o.state c .leaving }
      (Function.update st c .leaves) := by
  refine h.step c (fun x hx => Function.update_of_ne hx ..)
    (fun x hx => ⟨Function.update_of_ne hx .., rfl, rfl⟩) (fun x hx _ => hx) (fun x hx _ => hx)
    ?_ ?_ ?_ ?_ ?_
  · rw [Function.update_self]
    exact nofun
  · exact fun _ => Function.update_self ..
  · rw [Function.update_self]
    rintro (h | h) <;> cases h
  · refine fun hc => ⟨?_, (h.queue c hc).2⟩
    show Function.update o.state c .leaving c ≠ _
    rw [Function.update_self]
    decide
  · refine fun hc => ⟨(h.held c hc).1, ?_⟩
    rw [Function.update_self]
    decide

/-- A context goes on, and its node is as it was. -/
theorem stage (h : CondNodes o st) {v : CondStage} (hwaits : v ≠ .waits)
    (hleaves : v = .leaves ∨ v = .left → o.state c = .leaving)
    (hbehind : v = .behind ∨ v = .took → o.state c = .signaled)
    (htook : c ∈ o.visited ++ o.queue → v ≠ .took) : CondNodes o (Function.update st c v) := by
  refine h.step c (fun x hx => Function.update_of_ne hx ..) (fun x _ => ⟨rfl, rfl, rfl⟩)
    (fun x hx _ => hx) (fun x hx _ => hx) ?_ ?_ ?_ (h.queue c) ?_
  · rw [Function.update_self]
    exact fun heq => absurd heq hwaits
  · rw [Function.update_self]
    exact hleaves
  · rw [Function.update_self]
    exact hbehind
  · refine fun hc => ⟨(h.held c hc).1, ?_⟩
    rw [Function.update_self]
    exact htook hc

/-- The barrier of a node that is in a group is written. -/
theorem barrier (h : CondNodes o st) {b : ℕ} (hc : c ∉ o.visited ++ o.queue) :
    CondNodes { o with barrier := Function.update o.barrier c b } st :=
  h.step c (fun _ _ => rfl) (fun _ hx => ⟨rfl, Function.update_of_ne hx .., rfl⟩)
    (fun _ hx _ => hx) (fun _ hx _ => hx) (h.waits c) (h.leaves c) (h.behind c) (h.queue c)
    fun hmem => absurd hmem hc

theorem signals (h : CondNodes o st) {x : C} {q : List C} (hq : o.queue = x :: q)
    (hnodup : (o.visited ++ o.queue).Nodup) (hx : o.state x = .waiting) :
    CondNodes (o.signals x) st := by
  have hsame : o.visited ++ [x] ++ q = o.visited ++ o.queue := by
    rw [hq, List.append_assoc, List.singleton_append]
  have hqueue : (o.signals x).queue = q := by
    show o.queue.tail = q
    rw [hq, List.tail_cons]
  have hxq : x ∉ q := by
    rw [hq] at hnodup
    exact (List.nodup_cons.mp (List.nodup_append.mp hnodup).2.1).1
  have hmem : x ∈ o.visited ++ o.queue := by simp [hq]
  have hstate : (o.signals x).state x = .signaled := Function.update_self ..
  refine h.step x (fun _ _ => rfl) (fun y hy => ⟨Function.update_of_ne hy .., rfl, rfl⟩) ?_ ?_ ?_
    ?_ ?_ ?_ ?_
  · intro y hy _
    rw [hqueue] at hy
    rw [hq]
    exact List.mem_cons_of_mem x hy
  · intro y hy _
    rw [hqueue] at hy
    exact hsame ▸ hy
  · rw [hstate]
    exact fun _ => by decide
  · intro hleaves
    rw [h.leaves x hleaves] at hx
    cases hx
  · exact fun _ => hstate
  · rw [hqueue]
    exact fun hy => absurd hy hxq
  · exact fun _ => h.held x hmem

theorem counts (h : CondNodes o st) {x : C} {q : List C} (hq : o.queue = x :: q)
    (hnodup : (o.visited ++ o.queue).Nodup) : CondNodes (o.counts c x) st := by
  have hsame : o.visited ++ [x] ++ q = o.visited ++ o.queue := by
    rw [hq, List.append_assoc, List.singleton_append]
  have hqueue : (o.counts c x).queue = q := by
    show o.queue.tail = q
    rw [hq, List.tail_cons]
  have hxq : x ∉ q := by
    rw [hq] at hnodup
    exact (List.nodup_cons.mp (List.nodup_append.mp hnodup).2.1).1
  have hmem : x ∈ o.visited ++ o.queue := by simp [hq]
  refine h.step x (fun _ _ => rfl) (fun y hy => ⟨rfl, rfl, Function.update_of_ne hy ..⟩) ?_ ?_
    (h.waits x) (h.leaves x) (h.behind x) ?_ fun _ => h.held x hmem
  · intro y hy _
    rw [hqueue] at hy
    rw [hq]
    exact List.mem_cons_of_mem x hy
  · intro y hy _
    rw [hqueue] at hy
    exact hsame ▸ hy
  · rw [hqueue]
    exact fun hy => absurd hy hxq

end CondNodes

/-! ## The groups -/

namespace GroupOk

variable {g : List C}

/-- Where a context of a group is leaving, the whole group is held. -/
theorem held_of_leaving (h : GroupOk o st sg g) {y : C} (hy : y ∈ g)
    (hleaving : o.state y = .leaving) {x : C} (hx : x ∈ g) : HeldBack o st x := by
  cases g with
  | nil => cases hx
  | cons a g =>
    rcases List.mem_cons.mp hx with rfl | hx
    · refine (h.first x rfl).resolve_right fun hopen => ?_
      have hsignaled := hopen.2 y hy
      rw [hleaving] at hsignaled
      cases hsignaled
    · exact h.rest x hx

/-- A context that is past its barrier, or whose barrier is open, is the first of its group, and all
of it was signaled. -/
theorem of_not_held (h : GroupOk o st sg g) {x : C} (hx : x ∈ g) (hheld : ¬HeldBack o st x) :
    ∃ t, g = x :: t ∧ ∀ y ∈ g, o.state y = .signaled := by
  cases g with
  | nil => cases hx
  | cons a g =>
    rcases List.mem_cons.mp hx with rfl | hx
    · exact ⟨g, rfl, ((h.first x rfl).resolve_left hheld).2⟩
    · exact absurd (h.rest x hx) hheld

variable [DecidableEq C]

theorem oldest_erase (hc : o.state c ≠ .signaled) : o.oldest (g.erase c) = o.oldest g := by
  unfold Cond.oldest
  induction g with
  | nil => rfl
  | cons a g ih =>
    by_cases hac : a = c
    · subst hac
      rw [List.erase_cons_head, List.find?_cons_of_neg (by simpa using hc)]
    · rw [List.erase_cons_tail (by simpa using hac), List.find?_cons, List.find?_cons, ih]

/-- A context that is leaving takes its node out. -/
theorem erase (h : GroupOk o st sg g) (hc : o.state c = .leaving) :
    GroupOk o st sg (g.erase c) := by
  by_cases hmem : c ∈ g
  · have hheld : ∀ x ∈ g.erase c, HeldBack o st x := fun x hx =>
      h.held_of_leaving hmem hc (List.mem_of_mem_erase hx)
    have holdest : o.oldest (g.erase c) = o.oldest g := oldest_erase (by rw [hc]; decide)
    constructor
    · exact fun x hx => h.states x (List.mem_of_mem_erase hx)
    · exact fun x hx => hheld x (List.mem_of_mem_tail hx)
    · exact fun x hx => .inl (hheld x (List.mem_of_mem_head? hx))
    · rw [holdest]
      exact h.pending
    · rw [holdest]
      exact fun x hx => h.leaving x (List.mem_of_mem_erase hx)
  · rwa [List.erase_of_not_mem hmem]

end GroupOk

namespace CondGroups

/-- Something is done to a node that is in no group. -/
theorem frame (h : CondGroups o st sg) (hc : ∀ g ∈ o.visited :: o.groups, c ∉ g)
    (hstage : ∀ x ≠ c, st' x = st x)
    (hnode : ∀ x ≠ c, o'.state x = o.state x ∧ o'.barrier x = o.barrier x ∧
      o'.notify x = o.notify x)
    (hlists : o'.visited = o.visited ∧ o'.groups = o.groups)
    (hvisits : ∀ s p first, sg s = .visits p first → o'.queue.head? = o.queue.head? ∧
      (st' c = .leaves ∨ st' c = .left → o'.notify c ≠ some s)) : CondGroups o' st' sg := by
  have hne : ∀ g ∈ o.visited :: o.groups, ∀ x ∈ g, x ≠ c := fun g hg x hx heq =>
    hc g hg (heq ▸ hx)
  have holdest : ∀ g ∈ o.visited :: o.groups, o'.oldest g = o.oldest g := fun g hg =>
    Cond.oldest_congr fun x hx => (hnode x (hne g hg x hx)).1
  constructor
  · rw [hlists.1, hlists.2]
    exact fun g hg => (h.groups g hg).frame (fun x hx => (hnode x (hne g hg x hx)).1)
      (fun x hx => (hnode x (hne g hg x hx)).2.1) (fun x hx => (hnode x (hne g hg x hx)).2.2)
      (fun x hx => by rw [hstage x (hne g hg x hx)]) fun _ _ hs => hs
  · intro s p first hs
    obtain ⟨hp, hfirst, hvisited, hall⟩ := h.visits s p first hs
    obtain ⟨hhead, hnotify⟩ := hvisits s p first hs
    rw [hlists.1, hhead, holdest _ List.mem_cons_self]
    refine ⟨hp, hfirst, fun y hy hy' => ?_, fun y hy hy' => ?_⟩
    · have hyc := hne _ List.mem_cons_self y hy
      rw [(hnode y hyc).1] at hy'
      rw [(hnode y hyc).2.2]
      exact hvisited y hy hy'
    · by_cases hyc : y = c
      · subst hyc
        exact absurd hy' (hnotify hy)
      · rw [hstage y hyc] at hy
        rw [(hnode y hyc).2.2] at hy'
        exact hall y hy hy'
  · rw [hlists.1]
    exact h.unvisited
  · intro s x hs
    obtain ⟨hheld, g, hg, hx⟩ := h.first s x hs
    have hxc := hne g hg x (Cond.state_of_oldest hx).1
    refine ⟨?_, g, by rw [hlists.1, hlists.2]; exact hg, by rw [holdest g hg]; exact hx⟩
    unfold HeldBack
    rw [(hnode x hxc).2.1, hstage x hxc]
    exact hheld
  · exact h.unique

/-- A context goes on that is not leaving and not past its barrier. -/
theorem stage [DecidableEq C] (h : CondGroups o st sg) {v : CondStage}
    (hleaves : v = .leaves ∨ v = .left → st c = .leaves ∨ st c = .left)
    (htook : v = .took ↔ st c = .took) : CondGroups o (Function.update st c v) sg := by
  have hsame : ∀ x, Function.update st c v x = .took ↔ st x = .took := by
    intro x
    by_cases hxc : x = c
    · subst hxc
      rwa [Function.update_self]
    · rw [Function.update_of_ne hxc]
  constructor
  · exact fun g hg => (h.groups g hg).frame (fun _ _ => rfl) (fun _ _ => rfl) (fun _ _ => rfl)
      (fun x _ => hsame x) fun _ _ hs => hs
  · intro s p first hs
    obtain ⟨hp, hfirst, hvisited, hall⟩ := h.visits s p first hs
    refine ⟨hp, hfirst, hvisited, fun y hy => hall y ?_⟩
    by_cases hyc : y = c
    · subst hyc
      rw [Function.update_self] at hy
      exact hleaves hy
    · rwa [Function.update_of_ne hyc] at hy
  · exact h.unvisited
  · intro s x hs
    obtain ⟨hheld, hg⟩ := h.first s x hs
    exact ⟨⟨hheld.1, fun heq => hheld.2 ((hsame x).mp heq)⟩, hg⟩
  · exact h.unique

/-- A context that is leaving takes its node out, while nobody walks through the list. -/
theorem unlink [DecidableEq C] (h : CondGroups o st sg)
    (hnobody : ∀ s p first, sg s ≠ .visits p first) (hc : o.state c = .leaving) :
    CondGroups (o.unlink c) st sg := by
  have hvisited := h.unvisited hnobody
  constructor
  · intro g hg
    rcases List.mem_cons.mp hg with heq | hg
    · rw [heq, show (o.unlink c).visited = [] from hvisited]
      exact GroupOk.nil
    · obtain ⟨g', hg', rfl⟩ := List.mem_map.mp hg
      exact ((h.groups g' (List.mem_cons_of_mem _ hg')).erase hc).frame (fun _ _ => rfl)
        (fun _ _ => rfl) (fun _ _ => rfl) (fun _ _ => Iff.rfl) fun _ _ hs => hs
  · exact fun s p first hs => absurd hs (hnobody s p first)
  · exact fun _ => hvisited
  · intro s x hs
    obtain ⟨hheld, g, hg, hx⟩ := h.first s x hs
    rcases List.mem_cons.mp hg with rfl | hg
    · rw [hvisited] at hx
      cases hx
    · refine ⟨hheld, g.erase c, List.mem_cons_of_mem _ (List.mem_map_of_mem hg), ?_⟩
      rw [show (o.unlink c).oldest (g.erase c) = o.oldest (g.erase c) from rfl,
        GroupOk.oldest_erase (by rw [hc]; decide)]
      exact hx
  · exact h.unique

/-- Where a context is that is not held: the first of a group that was all signaled. -/
theorem of_not_held (h : CondGroups o st sg) (hl : CondLists o st) (hn : CondNodes o st)
    (hc : (st c).linked = true) (hheld : ¬HeldBack o st c) :
    ∃ t, c :: t ∈ o.groups ∧ ∀ y ∈ c :: t, o.state y = .signaled := by
  rcases (hl.linked c).mp hc with hmem | ⟨g, hg, hmem⟩
  · exact absurd (hn.held c hmem) hheld
  · obtain ⟨t, rfl, hall⟩ := (h.groups g (List.mem_cons_of_mem _ hg)).of_not_held hmem hheld
    exact ⟨t, hg, hall⟩

/-- The group of a signaler that is done with those that leave is all signaled. -/
theorem group_of_frees (h : CondGroups o st sg) (hl : CondLists o st) (hn : CondNodes o st) {x : C}
    (hc : sg c = .frees (some x))
    (hdone : ∀ y, st y = .leaves ∨ st y = .left → o.notify y ≠ some c) :
    ∃ t, x :: t ∈ o.groups ∧ ∀ y ∈ x :: t, o.state y = .signaled := by
  have hcfirst : (sg c).first? = some (some x) := by
    rw [hc]
    rfl
  obtain ⟨hheld, g, hg, hx⟩ := h.first c x hcfirst
  have hgroup : g ∈ o.groups := by
    rcases List.mem_cons.mp hg with rfl | hg
    · -- whoever walks through the list would have the same first
      refine absurd (h.unvisited fun s p first hs => ?_)
        (List.ne_nil_of_mem (Cond.state_of_oldest hx).1)
      have hs' := (h.visits s p first hs).2.1
      have heq := h.unique s c x (by rw [hs, hs', hx]; rfl) hcfirst
      rw [heq, hc] at hs
      cases hs
    · exact hg
  have hall : ∀ y ∈ g, o.state y = .signaled := by
    intro y hy
    cases hstate : o.state y with
    | waiting => exact absurd hstate ((h.groups g hg).states y hy)
    | signaled => rfl
    | leaving =>
      obtain ⟨s, hs, hs'⟩ := (h.groups g hg).leaving y hy hstate
      obtain rfl := h.unique s c x (by rw [hs', hx]) hcfirst
      have hlinked := (hl.linked y).mpr (.inr ⟨g, hgroup, hy⟩)
      exact absurd hs (hdone y (.inl (hn.leaves_of_leaving hlinked hstate)))
  cases g with
  | nil => cases hx
  | cons a t =>
    unfold Cond.oldest at hx
    rw [List.find?_cons_of_pos (by simpa using hall a List.mem_cons_self)] at hx
    obtain rfl := Option.some.inj hx
    exact ⟨t, hgroup, hall⟩

variable [DecidableEq C]

/-- **A context gets past its barrier.** -/
theorem take (h : CondGroups o st sg) (hl : CondLists o st) (hn : CondNodes o st)
    (hc : st c = .behind) (hopen : o.barrier c = 0) (b : ℕ) :
    CondGroups { o with barrier := Function.update o.barrier c b }
      (Function.update st c .took) sg := by
  have hnot : ¬HeldBack o st c := fun hheld => by
    have := hheld.1
    omega
  obtain ⟨t, hg, hall⟩ := h.of_not_held hl hn (by rw [hc]; rfl) hnot
  have hct : c ∉ t := (List.nodup_cons.mp (nodup_of_flatten hl.nodup_groups hg)).1
  have hother : ∀ g ∈ o.visited :: o.groups, g ≠ c :: t → c ∉ g := by
    intro g hmem hne hcg
    rcases List.mem_cons.mp hmem with rfl | hmem
    · exact hl.apart _ hg c List.mem_cons_self (List.mem_append_left _ hcg)
    · exact hne (group_unique hl.nodup_groups hmem hg hcg List.mem_cons_self)
  have hheld : ∀ x, x ≠ c → (HeldBack { o with barrier := Function.update o.barrier c b }
      (Function.update st c .took) x ↔ HeldBack o st x) := by
    intro x hx
    unfold HeldBack
    rw [Function.update_of_ne hx]
    show Function.update o.barrier c b x = 2 ∧ _ ↔ _
    rw [Function.update_of_ne hx]
  have hself : ¬HeldBack { o with barrier := Function.update o.barrier c b }
      (Function.update st c .took) c := fun hheld' => hheld'.2 (Function.update_self ..)
  constructor
  · intro g hmem
    by_cases hgc : g = c :: t
    · subst hgc
      have hgroup := h.groups _ hmem
      constructor
      · exact hgroup.states
      · exact fun x hx => (hheld x fun heq => hct (heq ▸ hx)).mpr (hgroup.rest x hx)
      · intro x hx
        obtain rfl := Option.some.inj hx
        exact .inr ⟨.inr (Function.update_self ..), hall⟩
      · intro x hx hx'
        have hxc : x ≠ c := fun heq => hself (heq ▸ hx')
        exact hgroup.pending x hx ((hheld x hxc).mp hx')
      · exact hgroup.leaving
    · have hne := hother g hmem hgc
      have hxc : ∀ x ∈ g, x ≠ c := fun x hx heq => hne (heq ▸ hx)
      exact (h.groups g hmem).frame (fun _ _ => rfl)
        (fun x hx => Function.update_of_ne (hxc x hx) ..) (fun _ _ => rfl)
        (fun x hx => by rw [Function.update_of_ne (hxc x hx)]) fun _ _ hs => hs
  · intro s p first hs
    obtain ⟨hp, hfirst, hvisited, hall'⟩ := h.visits s p first hs
    refine ⟨hp, hfirst, hvisited, fun y hy => hall' y ?_⟩
    by_cases hyc : y = c
    · subst hyc
      rw [Function.update_self] at hy
      rcases hy with hy | hy <;> cases hy
    · rwa [Function.update_of_ne hyc] at hy
  · exact h.unvisited
  · intro s x hs
    obtain ⟨hx, hg'⟩ := h.first s x hs
    exact ⟨(hheld x fun heq => hnot (heq ▸ hx)).mpr hx, hg'⟩
  · exact h.unique

/-- **The first of a group goes**, when it has opened the barrier of the one after it. -/
theorem gone (h : CondGroups o st sg) (hl : CondLists o st) {t : List C} (hc : st c = .took)
    (hg : c :: t ∈ o.groups) (hall : ∀ y ∈ c :: t, o.state y = .signaled)
    (hnode : o'.state = o.state ∧ o'.notify = o.notify)
    (hlists : o'.visited = o.visited ∧ o'.queue = o.queue ∧
      o'.groups = o.groups.map (·.erase c))
    (hkept : ∀ x, x ∉ t.head? → o'.barrier x = o.barrier x)
    (hopen : ∀ x ∈ t.head?, o'.barrier x = 0) :
    CondGroups o' (Function.update st c .out) sg := by
  have hnodup := nodup_of_flatten hl.nodup_groups hg
  have hct : c ∉ t := (List.nodup_cons.mp hnodup).1
  have hvisited : ∀ x ∈ c :: t, x ∉ o.visited := fun x hx hmem =>
    hl.apart _ hg x hx (List.mem_append_left _ hmem)
  have hgroup := h.groups _ (List.mem_cons_of_mem _ hg)
  have holdest : ∀ g, o'.oldest g = o.oldest g := fun g =>
    Cond.oldest_congr fun x _ => by rw [hnode.1]
  -- what is neither `c` nor the first after it is as it was
  have hsame : ∀ x, x ≠ c → x ∉ t.head? →
      (HeldBack o' (Function.update st c .out) x ↔ HeldBack o st x) := by
    intro x hx hx'
    unfold HeldBack
    rw [hkept x hx', Function.update_of_ne hx]
  have hother : ∀ g ∈ o.visited :: o.groups, g ≠ c :: t → ∀ x ∈ g, x ∉ c :: t := by
    intro g hmem hne x hx hxt
    rcases List.mem_cons.mp hmem with rfl | hmem
    · exact hvisited x hxt hx
    · exact hne (group_unique hl.nodup_groups hmem hg hx hxt)
  have hapart : ∀ g ∈ o.visited :: o.groups, g ≠ c :: t → GroupOk o' (Function.update st c .out)
      sg g := by
    intro g hmem hne
    have hx := hother g hmem hne
    have hxc : ∀ x ∈ g, x ≠ c := fun x hxg heq => hx x hxg (heq ▸ List.mem_cons_self)
    exact (h.groups g hmem).frame (fun x _ => by rw [hnode.1])
      (fun x hxg => hkept x fun hmem =>
        hx x hxg (List.mem_cons_of_mem c (List.mem_of_mem_head? hmem)))
      (fun x _ => by rw [hnode.2]) (fun x hxg => by rw [Function.update_of_ne (hxc x hxg)])
      fun _ _ hs => hs
  have hrest : GroupOk o' (Function.update st c .out) sg t := by
    constructor
    · intro x hx
      rw [hnode.1]
      exact hgroup.states x (List.mem_cons_of_mem c hx)
    · intro x hx
      have hxt := List.mem_of_mem_tail hx
      refine (hsame x (fun heq => hct (heq ▸ hxt)) fun hhead => ?_).mpr (hgroup.rest x hxt)
      -- the first of the rest is not met again in it
      cases t with
      | nil => cases hx
      | cons a t =>
        obtain rfl := Option.some.inj hhead
        exact (List.nodup_cons.mp (List.nodup_cons.mp hnodup).2).1 hx
    · intro x hx
      refine .inr ⟨.inl (hopen x hx), fun y hy => ?_⟩
      rw [hnode.1]
      exact hall y (List.mem_cons_of_mem c hy)
    · intro x hx hheld
      rw [holdest] at hx
      -- the oldest is the first, and its barrier is open
      have hhead : x ∈ t.head? := by
        cases t with
        | nil => cases hx
        | cons a t =>
          have hsignaled := hall a (List.mem_cons_of_mem c List.mem_cons_self)
          unfold Cond.oldest at hx
          rw [List.find?_cons_of_pos (by simpa using hsignaled)] at hx
          exact hx
      have := hheld.1
      rw [hopen x hhead] at this
      cases this
    · intro x hx hleaving
      rw [hnode.1, hall x (List.mem_cons_of_mem c hx)] at hleaving
      cases hleaving
  constructor
  · rw [hlists.1, hlists.2.2]
    intro g hmem
    rcases List.mem_cons.mp hmem with rfl | hmem
    · exact hapart _ List.mem_cons_self fun heq =>
        hvisited c List.mem_cons_self (heq ▸ List.mem_cons_self)
    · obtain ⟨g', hg', rfl⟩ := List.mem_map.mp hmem
      by_cases hgc : g' = c :: t
      · rw [hgc, List.erase_cons_head]
        exact hrest
      · have hmem' := List.mem_cons_of_mem o.visited hg'
        rw [List.erase_of_not_mem fun hcg =>
          hother g' hmem' hgc c hcg List.mem_cons_self]
        exact hapart g' hmem' hgc
  · intro s p first hs
    obtain ⟨hp, hfirst, hseen, hall'⟩ := h.visits s p first hs
    rw [hlists.1, hlists.2.1, hnode.1, hnode.2, holdest]
    refine ⟨hp, hfirst, hseen, fun y hy => hall' y ?_⟩
    by_cases hyc : y = c
    · subst hyc
      rw [Function.update_self] at hy
      rcases hy with hy | hy <;> cases hy
    · rwa [Function.update_of_ne hyc] at hy
  · rw [hlists.1]
    exact h.unvisited
  · intro s x hs
    obtain ⟨hheld, g, hmem, hx⟩ := h.first s x hs
    have hxc : x ≠ c := fun heq => hheld.2 (heq ▸ hc)
    have hxg := (Cond.state_of_oldest hx).1
    -- the oldest of the group itself is `c`
    have hne : g ≠ c :: t := by
      rintro rfl
      unfold Cond.oldest at hx
      rw [List.find?_cons_of_pos (by simpa using hall c List.mem_cons_self)] at hx
      exact hxc (Option.some.inj hx).symm
    have hout := hother g hmem hne
    refine ⟨(hsame x hxc fun hhead => hout x hxg (List.mem_cons_of_mem c
      (List.mem_of_mem_head? hhead))).mpr hheld, g, ?_, by rw [holdest]; exact hx⟩
    rw [hlists.1, hlists.2.2]
    rcases List.mem_cons.mp hmem with rfl | hmem
    · exact List.mem_cons_self
    · refine List.mem_cons_of_mem _ (List.mem_map.mpr ⟨g, hmem, ?_⟩)
      exact List.erase_of_not_mem fun hcg => hout c hcg List.mem_cons_self
  · exact h.unique

/-- A signaler starts, while nobody else walks through the list. -/
theorem begin (h : CondGroups o st sg) (hnobody : ∀ s p first, sg s ≠ .visits p first)
    (hc : (sg c).first? = none)
    (hnew : ∀ y, st y = .leaves ∨ st y = .left → o.notify y ≠ some c)
    (hnode : o'.state = o.state ∧ o'.barrier = o.barrier ∧ o'.notify = o.notify)
    (hlists : o'.visited = o.visited ∧ o'.queue = o.queue ∧ o'.groups = o.groups) :
    CondGroups o' st (Function.update sg c (.visits o.queue.head? none)) := by
  have hvisited := h.unvisited hnobody
  have holdest : ∀ g, o'.oldest g = o.oldest g := fun g =>
    Cond.oldest_congr fun x _ => by rw [hnode.1]
  have hfirst : ∀ s f, (sg s).first? = some f →
      (Function.update sg c (.visits o.queue.head? none) s).first? = some f := by
    intro s f hs
    have hsc : s ≠ c := fun heq => by rw [heq, hc] at hs; cases hs
    rwa [Function.update_of_ne hsc]
  have hback : ∀ s x, (Function.update sg c (.visits o.queue.head? none) s).first? =
      some (some x) → (sg s).first? = some (some x) := by
    intro s x hs
    by_cases hsc : s = c
    · subst hsc
      rw [Function.update_self] at hs
      cases hs
    · rwa [Function.update_of_ne hsc] at hs
  constructor
  · rw [hlists.1, hlists.2.2]
    exact fun g hg => (h.groups g hg).frame (fun x _ => by rw [hnode.1])
      (fun x _ => by rw [hnode.2.1]) (fun x _ => by rw [hnode.2.2]) (fun _ _ => Iff.rfl) hfirst
  · intro s p first hs
    by_cases hsc : s = c
    · subst hsc
      rw [Function.update_self] at hs
      cases hs
      rw [hlists.1, hlists.2.1, hvisited, hnode.2.2]
      exact ⟨rfl, rfl, nofun, fun y hy hy' => absurd hy' (hnew y hy)⟩
    · rw [Function.update_of_ne hsc] at hs
      exact absurd hs (hnobody s p first)
  · intro _
    rw [hlists.1]
    exact hvisited
  · intro s x hs
    obtain ⟨hheld, g, hg, hx⟩ := h.first s x (hback s x hs)
    refine ⟨?_, g, by rw [hlists.1, hlists.2.2]; exact hg, by rw [holdest]; exact hx⟩
    unfold HeldBack
    rw [hnode.2.1]
    exact hheld
  · exact fun s t x hs ht => h.unique s t x (hback s x hs) (hback t x ht)

/-- A signaler that is not in the list goes on. -/
theorem settle (h : CondGroups o st sg) {v : SignalStage C} (hv : v.first? = (sg c).first?)
    (hc : ∀ p first, sg c ≠ .visits p first) (hv' : ∀ p first, v ≠ .visits p first) :
    CondGroups o st (Function.update sg c v) := by
  have hfirst : ∀ s, (Function.update sg c v s).first? = (sg s).first? := by
    intro s
    by_cases hsc : s = c
    · subst hsc
      rw [Function.update_self, hv]
    · rw [Function.update_of_ne hsc]
  have hvisits : ∀ s p first, Function.update sg c v s = .visits p first ↔
      sg s = .visits p first := by
    intro s p first
    by_cases hsc : s = c
    · subst hsc
      rw [Function.update_self]
      exact iff_of_false (hv' p first) (hc p first)
    · rw [Function.update_of_ne hsc]
  constructor
  · exact fun g hg => (h.groups g hg).frame (fun _ _ => rfl) (fun _ _ => rfl) (fun _ _ => rfl)
      (fun _ _ => Iff.rfl) fun s f hs => by rw [hfirst]; exact hs
  · exact fun s p first hs => h.visits s p first ((hvisits s p first).mp hs)
  · exact fun hnobody => h.unvisited fun s p first hs =>
      hnobody s p first ((hvisits s p first).mpr hs)
  · exact fun s x hs => h.first s x (hfirst s ▸ hs)
  · exact fun s t x hs ht => h.unique s t x (hfirst s ▸ hs) (hfirst t ▸ ht)

/-- **A signaler goes through a node**, which becomes its first where it had none, or whose context
is leaving and will tell it. -/
theorem walk (h : CondGroups o st sg) (hl : CondLists o st) (hn : CondNodes o st) {x : C}
    {q : List C} {p first first' : Option C} (hc : sg c = .visits p first)
    (hothers : ∀ s ≠ c, ∀ p first, sg s ≠ .visits p first) (hq : o.queue = x :: q)
    (hnode : ∀ y ≠ x, o'.state y = o.state y ∧ o'.notify y = o.notify y)
    (hbarrier : o'.barrier = o.barrier)
    (hlists : o'.visited = o.visited ++ [x] ∧ o'.queue = q ∧ o'.groups = o.groups)
    (hstate : o'.state x ≠ .waiting) (hnotify : o'.state x = .leaving → o'.notify x = some c)
    (hfirst : first' = first.or (o'.oldest [x])) :
    CondGroups o' st (Function.update sg c (.visits q.head? first')) := by
  obtain ⟨-, hold, hseen, hall⟩ := h.visits c p first hc
  have hxlist : x ∈ o.visited ++ o.queue := by simp [hq]
  have hxvisited : x ∉ o.visited := fun hmem =>
    (List.nodup_append.mp hl.nodup).2.2 x hmem x (by rw [hq]; exact List.mem_cons_self) rfl
  have hxgroups : ∀ g ∈ o.groups, x ∉ g := fun g hg hmem => hl.apart g hg x hmem hxlist
  have hne : ∀ g ∈ o.visited :: o.groups, ∀ y ∈ g, y ≠ x := by
    intro g hg y hy heq
    rcases List.mem_cons.mp hg with rfl | hg
    · exact hxvisited (heq ▸ hy)
    · exact hxgroups g hg (heq ▸ hy)
  have holdest : ∀ g ∈ o.visited :: o.groups, o'.oldest g = o.oldest g := fun g hg =>
    Cond.oldest_congr fun y hy => (hnode y (hne g hg y hy)).1
  have hlast : o'.oldest (o.visited ++ [x]) = first' := by
    rw [hfirst, hold, ← holdest _ List.mem_cons_self]
    exact List.find?_append
  have hheld : ∀ y ∈ o.visited ++ [x], HeldBack o' st y := by
    intro y hy
    have hmem : y ∈ o.visited ++ o.queue := by
      rcases List.mem_append.mp hy with hy | hy
      · exact List.mem_append_left _ hy
      · exact List.mem_singleton.mp hy ▸ hxlist
    unfold HeldBack
    rw [hbarrier]
    exact hn.held y hmem
  have hself : (Function.update sg c (.visits q.head? first') c).first? = some first' := by
    rw [Function.update_self]
    rfl
  have hother : ∀ s, s ≠ c → (Function.update sg c (.visits q.head? first') s).first? =
      (sg s).first? := fun s hs => by rw [Function.update_of_ne hs]
  have hcfirst : (sg c).first? = some first := by
    rw [hc]
    rfl
  -- what was the first of the signaler remains so
  have hkeep : ∀ y, first = some y → first' = some y := fun y hy => by rw [hfirst, hy]; rfl
  constructor
  · rw [hlists.1, hlists.2.2]
    intro g hg
    rcases List.mem_cons.mp hg with rfl | hg
    · have hgroup := h.groups _ List.mem_cons_self
      constructor
      · intro y hy
        rcases List.mem_append.mp hy with hy | hy
        · rw [(hnode y (hne _ List.mem_cons_self y hy)).1]
          exact hgroup.states y hy
        · exact List.mem_singleton.mp hy ▸ hstate
      · exact fun y hy => hheld y (List.mem_of_mem_tail hy)
      · exact fun y hy => .inl (hheld y (List.mem_of_mem_head? hy))
      · intro y hy _
        rw [hlast] at hy
        exact ⟨c, by rw [hself, hy]⟩
      · intro y hy hleaving
        rw [hlast]
        refine ⟨c, ?_, hself⟩
        rcases List.mem_append.mp hy with hy | hy
        · have hyx := hne _ List.mem_cons_self y hy
          rw [(hnode y hyx).1] at hleaving
          rw [(hnode y hyx).2]
          exact hseen y hy hleaving
        · obtain rfl := List.mem_singleton.mp hy
          exact hnotify hleaving
    · have hmem := List.mem_cons_of_mem o.visited hg
      refine (h.groups g hmem).congr (fun y hy => (hnode y (hne g hmem y hy)).1)
        (fun y _ => by rw [hbarrier]) (fun y hy => (hnode y (hne g hmem y hy)).2)
        (fun _ _ => Iff.rfl) (fun y hy s hs => ?_) fun y hy hleaving s hs hs' => ?_
      · by_cases hsc : s = c
        · subst hsc
          rw [hcfirst] at hs
          exact ⟨s, by rw [hself, hkeep y (Option.some.inj hs)]⟩
        · exact ⟨s, by rw [hother s hsc]; exact hs⟩
      · by_cases hsc : s = c
        · -- those that will tell this signaler are in what it has been through
          subst hsc
          have hlinked := (hl.linked y).mpr (.inr ⟨g, hg, hy⟩)
          have hleaves := hn.leaves_of_leaving hlinked hleaving
          exact absurd (List.mem_append_left _ (hall y (.inl hleaves) hs)) (hl.apart g hg y hy)
        · rw [hother s hsc]
          exact hs'
  · intro s p₁ first₁ hs
    by_cases hsc : s = c
    · subst hsc
      rw [Function.update_self] at hs
      cases hs
      rw [hlists.1, hlists.2.1]
      refine ⟨rfl, hlast.symm, fun y hy hleaving => ?_, fun y hy hy' => ?_⟩
      · rcases List.mem_append.mp hy with hy | hy
        · have hyx := hne _ List.mem_cons_self y hy
          rw [(hnode y hyx).1] at hleaving
          rw [(hnode y hyx).2]
          exact hseen y hy hleaving
        · obtain rfl := List.mem_singleton.mp hy
          exact hnotify hleaving
      · by_cases hyx : y = x
        · exact List.mem_append_right _ (List.mem_singleton.mpr hyx)
        · rw [(hnode y hyx).2] at hy'
          exact List.mem_append_left _ (hall y hy hy')
    · rw [Function.update_of_ne hsc] at hs
      exact absurd hs (hothers s hsc p₁ first₁)
  · intro hnobody
    exact absurd (Function.update_self ..) (hnobody c q.head? first')
  · intro s y hs
    by_cases hsc : s = c
    · subst hsc
      rw [hself] at hs
      have hy : o'.oldest (o.visited ++ [x]) = some y := hlast.trans (Option.some.inj hs)
      refine ⟨hheld y (List.mem_of_find?_eq_some hy), o.visited ++ [x], ?_, hy⟩
      rw [hlists.1]
      exact List.mem_cons_self
    · rw [hother s hsc] at hs
      obtain ⟨hheld', g, hg, hy⟩ := h.first s y hs
      refine ⟨?_, g, ?_, by rw [holdest g hg]; exact hy⟩
      · unfold HeldBack
        rw [hbarrier]
        exact hheld'
      · rcases List.mem_cons.mp hg with rfl | hg
        · -- it would be this signaler's first
          exact absurd (h.unique s c y hs (by rw [hcfirst, hold, hy])) hsc
        · rw [hlists.2.2]
          exact List.mem_cons_of_mem _ hg
  · have hnot : ∀ t ≠ c, ∀ y, first' = some y → (sg t).first? ≠ some (some y) := by
      intro t htc y hy ht
      obtain ⟨-, g, hg, hyg⟩ := h.first t y ht
      cases hf : first with
      | some z =>
        have hyz : z = y := Option.some.inj ((hkeep z hf).symm.trans hy)
        exact htc (h.unique t c y ht (by rw [hcfirst, hf, hyz]))
      | none =>
        rw [hfirst, hf, Option.none_or] at hy
        have hyx := List.mem_singleton.mp (List.mem_of_find?_eq_some hy)
        exact hne g hg y (Cond.state_of_oldest hyg).1 hyx
    intro s t y hs ht
    by_cases hsc : s = c
    · by_cases htc : t = c
      · rw [hsc, htc]
      · rw [hsc, hself] at hs
        rw [hother t htc] at ht
        exact absurd ht (hnot t htc y (Option.some.inj hs))
    · rw [hother s hsc] at hs
      by_cases htc : t = c
      · rw [htc, hself] at ht
        exact absurd hs (hnot s hsc y (Option.some.inj ht))
      · rw [hother t htc] at ht
        exact h.unique s t y hs ht

/-- What the signaler has been through becomes a group. -/
theorem split (h : CondGroups o st sg) {p first : Option C} (hc : sg c = .visits p first)
    (hothers : ∀ s ≠ c, ∀ p first, sg s ≠ .visits p first) :
    CondGroups (o.split p) st (Function.update sg c (.counts first)) := by
  have hfirst : ∀ s, (Function.update sg c (.counts first) s).first? = (sg s).first? := by
    intro s
    by_cases hsc : s = c
    · subst hsc
      rw [Function.update_self, hc]
      rfl
    · rw [Function.update_of_ne hsc]
  constructor
  · intro g hg
    rcases List.mem_cons.mp hg with rfl | hg
    · exact GroupOk.nil
    · exact (h.groups g hg).frame (fun _ _ => rfl) (fun _ _ => rfl) (fun _ _ => rfl)
        (fun _ _ => Iff.rfl) fun s f hs => by rw [hfirst]; exact hs
  · intro s p₁ first₁ hs
    by_cases hsc : s = c
    · subst hsc
      rw [Function.update_self] at hs
      cases hs
    · rw [Function.update_of_ne hsc] at hs
      exact absurd hs (hothers s hsc p₁ first₁)
  · exact fun _ => rfl
  · intro s x hs
    obtain ⟨hheld, g, hg, hx⟩ := h.first s x (hfirst s ▸ hs)
    exact ⟨hheld, g, List.mem_cons_of_mem _ hg, hx⟩
  · exact fun s t x hs ht => h.unique s t x (hfirst s ▸ hs) (hfirst t ▸ ht)

/-- A signaler that signaled nobody is done. -/
theorem free_none (h : CondGroups o st sg) (hl : CondLists o st) (hn : CondNodes o st)
    (hc : sg c = .frees none)
    (hdone : ∀ y, st y = .leaves ∨ st y = .left → o.notify y ≠ some c) :
    CondGroups o st (Function.update sg c .none) := by
  have hsc : ∀ s x, (sg s).first? = some (some x) → s ≠ c := fun s x hs heq => by
    rw [heq, hc] at hs
    cases hs
  have hfirst : ∀ s x, (Function.update sg c .none s).first? = some (some x) ↔
      (sg s).first? = some (some x) := by
    intro s x
    by_cases heq : s = c
    · subst heq
      rw [Function.update_self]
      exact iff_of_false nofun fun hs => hsc s x hs rfl
    · rw [Function.update_of_ne heq]
  have hvisits : ∀ s p first, Function.update sg c .none s = .visits p first ↔
      sg s = .visits p first := by
    intro s p first
    by_cases heq : s = c
    · subst heq
      rw [Function.update_self, hc]
      exact iff_of_false nofun nofun
    · rw [Function.update_of_ne heq]
  constructor
  · intro g hg
    refine (h.groups g hg).congr (fun _ _ => rfl) (fun _ _ => rfl) (fun _ _ => rfl)
      (fun _ _ => Iff.rfl) (fun x _ s hs => ⟨s, (hfirst s x).mpr hs⟩) fun y hy hy' s hs hs' => ?_
    have hlinked : (st y).linked = true := by
      rcases List.mem_cons.mp hg with rfl | hg
      · exact (hl.linked y).mpr (.inl (List.mem_append_left _ hy))
      · exact (hl.linked y).mpr (.inr ⟨g, hg, hy⟩)
    have hne : s ≠ c := fun heq =>
      hdone y (.inl (hn.leaves_of_leaving hlinked hy')) (heq ▸ hs)
    rwa [Function.update_of_ne hne]
  · exact fun s p first hs => h.visits s p first ((hvisits s p first).mp hs)
  · exact fun hnobody => h.unvisited fun s p first hs =>
      hnobody s p first ((hvisits s p first).mpr hs)
  · exact fun s x hs => h.first s x ((hfirst s x).mp hs)
  · exact fun s t x hs ht => h.unique s t x ((hfirst s x).mp hs) ((hfirst t x).mp ht)

/-- **A signaler opens the barrier of its first.** -/
theorem free_some (h : CondGroups o st sg) (hl : CondLists o st) (hn : CondNodes o st) {x : C}
    (hc : sg c = .frees (some x))
    (hdone : ∀ y, st y = .leaves ∨ st y = .left → o.notify y ≠ some c) :
    CondGroups (o.opened x) st (Function.update sg c .none) := by
  have hcfirst : (sg c).first? = some (some x) := by
    rw [hc]
    rfl
  obtain ⟨t, hg, hall⟩ := h.group_of_frees hl hn hc hdone
  have hnodup := nodup_of_flatten hl.nodup_groups hg
  have hother : ∀ g ∈ o.visited :: o.groups, g ≠ x :: t → x ∉ g := by
    intro g hmem hne hxg
    rcases List.mem_cons.mp hmem with rfl | hmem
    · exact hl.apart _ hg x List.mem_cons_self (List.mem_append_left _ hxg)
    · exact hne (group_unique hl.nodup_groups hmem hg hxg List.mem_cons_self)
  have hopen : (o.opened x).barrier x = 0 := Function.update_self ..
  have hsame : ∀ y, y ≠ x → (HeldBack (o.opened x) st y ↔ HeldBack o st y) := by
    intro y hy
    unfold HeldBack
    rw [show (o.opened x).barrier y = o.barrier y from Function.update_of_ne hy ..]
  have hself : ¬HeldBack (o.opened x) st x := fun hheld => by
    have := hheld.1
    omega
  -- no other signaler had this first
  have hback : ∀ s y, (Function.update sg c .none s).first? = some (some y) →
      (sg s).first? = some (some y) ∧ y ≠ x := by
    intro s y hs
    by_cases hsc : s = c
    · subst hsc
      rw [Function.update_self] at hs
      cases hs
    · rw [Function.update_of_ne hsc] at hs
      exact ⟨hs, fun heq => hsc (h.unique s c x (heq ▸ hs) hcfirst)⟩
  have hforth : ∀ s y, y ≠ x → (sg s).first? = some (some y) →
      (Function.update sg c .none s).first? = some (some y) := by
    intro s y hy hs
    have hsc : s ≠ c := by
      rintro rfl
      rw [hcfirst] at hs
      exact hy (Option.some.inj (Option.some.inj hs)).symm
    rwa [Function.update_of_ne hsc]
  have hvisits : ∀ s p first, Function.update sg c .none s = .visits p first ↔
      sg s = .visits p first := by
    intro s p first
    by_cases heq : s = c
    · subst heq
      rw [Function.update_self, hc]
      exact iff_of_false nofun nofun
    · rw [Function.update_of_ne heq]
  constructor
  · intro g hmem
    have hgroup := h.groups g hmem
    by_cases hgx : g = x :: t
    · subst hgx
      constructor
      · exact hgroup.states
      · intro y hy
        have hyx : y ≠ x := fun heq => (List.nodup_cons.mp hnodup).1 (heq ▸ hy)
        exact (hsame y hyx).mpr (hgroup.rest y hy)
      · intro y hy
        obtain rfl := Option.some.inj hy
        exact .inr ⟨.inl hopen, hall⟩
      · intro y hy hheld
        have hyx : y ≠ x := fun heq => hself (heq ▸ hheld)
        obtain ⟨s, hs⟩ := hgroup.pending y hy ((hsame y hyx).mp hheld)
        exact ⟨s, hforth s y hyx hs⟩
      · intro y hy hleaving
        rw [show (o.opened x).state y = o.state y from rfl, hall y hy] at hleaving
        cases hleaving
    · have hxg := hother g hmem hgx
      have hyx : ∀ y ∈ g, y ≠ x := fun y hy heq => hxg (heq ▸ hy)
      refine hgroup.congr (fun _ _ => rfl) (fun y hy => Function.update_of_ne (hyx y hy) ..)
        (fun _ _ => rfl) (fun _ _ => Iff.rfl) (fun y hy s hs => ⟨s, hforth s y (hyx y hy) hs⟩)
        fun y hy hleaving s hs hs' => ?_
      have hsc : s ≠ c := by
        rintro rfl
        rw [hcfirst] at hs'
        exact hxg (Cond.state_of_oldest (Option.some.inj hs').symm).1
      rwa [Function.update_of_ne hsc]
  · exact fun s p first hs => h.visits s p first ((hvisits s p first).mp hs)
  · exact fun hnobody => h.unvisited fun s p first hs =>
      hnobody s p first ((hvisits s p first).mpr hs)
  · intro s y hs
    obtain ⟨hs, hyx⟩ := hback s y hs
    obtain ⟨hheld, hg'⟩ := h.first s y hs
    exact ⟨(hsame y hyx).mpr hheld, hg'⟩
  · exact fun s t y hs ht => h.unique s t y (hback s y hs).1 (hback t y ht).1

end CondGroups

/-! ## Who tells whom -/

section Refs

variable [Fintype C] [DecidableEq C]

theorem mem_leavers {s x : C} :
    x ∈ leavers o st s ↔ (st x = .leaves ∨ st x = .left) ∧ o.notify x = some s := by
  simp [leavers]

/-- Nobody who is leaving is affected. -/
theorem CondRefs.frame (h : CondRefs o st sg)
    (hleaves : ∀ x s, (st' x = .leaves ∨ st' x = .left) ∧ o'.notify x = some s ↔
      (st x = .leaves ∨ st x = .left) ∧ o.notify x = some s)
    (href : ∀ s, (sg s).counting = true → o'.ref s = o.ref s)
    (hcounting : ∀ s, (sg' s).counting = (sg s).counting) : CondRefs o' st' sg' where
  ref s hs := by
    rw [hcounting] at hs
    have hsame : leavers o' st' s = leavers o st s := by
      ext x
      rw [mem_leavers, mem_leavers, hleaves]
    rw [href s hs, hsame]
    exact h.ref s hs
  notify x s hx hs := by
    rw [hcounting]
    obtain ⟨hx, hs⟩ := (hleaves x s).mp ⟨hx, hs⟩
    exact h.notify x s hx hs

namespace CondRefs

/-- A context goes on that is not told of, or is leaving as before. -/
theorem stage (h : CondRefs o st sg) {v : CondStage}
    (hv : (v = .leaves ∨ v = .left) ∧ o'.notify c ≠ none ↔
      (st c = .leaves ∨ st c = .left) ∧ o.notify c ≠ none)
    (hc : st c = .leaves ∨ st c = .left → o'.notify c = o.notify c)
    (hnotify : ∀ x ≠ c, o'.notify x = o.notify x) (href : o'.ref = o.ref) :
    CondRefs o' (Function.update st c v) sg := by
  refine h.frame (fun x s => ?_) (fun s _ => by rw [href]) fun _ => rfl
  by_cases hxc : x = c
  · subst hxc
    rw [Function.update_self]
    constructor
    · rintro ⟨hx, hs⟩
      obtain ⟨hx', -⟩ := hv.mp ⟨hx, by rw [hs]; exact Option.some_ne_none s⟩
      exact ⟨hx', hc hx' ▸ hs⟩
    · rintro ⟨hx, hs⟩
      obtain ⟨hx', -⟩ := hv.mpr ⟨hx, by rw [hs]; exact Option.some_ne_none s⟩
      exact ⟨hx', (hc hx).trans hs⟩
  · rw [Function.update_of_ne hxc, hnotify x hxc]

/-- **A context that has left tells its signaler.** -/
theorem tell (h : CondRefs o st sg) {s : C} (hc : st c = .left) (hs : o.notify c = some s) :
    1 ≤ o.ref s ∧ CondRefs { o with ref := Function.update o.ref s (o.ref s - 1) }
      (Function.update st c .out) sg := by
  have hmem : c ∈ leavers o st s := mem_leavers.mpr ⟨.inr hc, hs⟩
  have hcounting := h.notify c s (.inr hc) hs
  have hpos : 1 ≤ (leavers o st s).card := Finset.card_pos.mpr ⟨c, hmem⟩
  refine ⟨h.ref s hcounting ▸ hpos, ⟨fun t ht => ?_, fun x t hx ht => ?_⟩⟩
  · have hset : leavers { o with ref := Function.update o.ref s (o.ref s - 1) }
        (Function.update st c .out) t = (leavers o st t).erase c := by
      ext x
      rw [Finset.mem_erase, mem_leavers, mem_leavers]
      by_cases hxc : x = c
      · subst hxc
        rw [Function.update_self]
        simp
      · rw [Function.update_of_ne hxc]
        simp [hxc]
    rw [hset]
    by_cases hts : t = s
    · subst hts
      show Function.update o.ref t _ t = _
      rw [Function.update_self, Finset.card_erase_of_mem hmem, h.ref t ht]
    · show Function.update o.ref s _ t = _
      rw [Function.update_of_ne hts, h.ref t ht, Finset.erase_eq_of_notMem]
      rw [mem_leavers, hs]
      exact fun hmem' => hts (Option.some.inj hmem'.2).symm
  · by_cases hxc : x = c
    · subst hxc
      rw [Function.update_self] at hx
      rcases hx with hx | hx <;> cases hx
    · rw [Function.update_of_ne hxc] at hx
      exact h.notify x t hx ht

/-- A signaler starts: nobody will tell it. -/
theorem begin (h : CondRefs o st sg) (hc : (sg c).counting = false) (p : Option C) :
    CondRefs { o with ref := Function.update o.ref c 0 } st
      (Function.update sg c (.visits p none)) := by
  have hnone : ∀ x, st x = .leaves ∨ st x = .left → o.notify x ≠ some c := fun x hx hs => by
    rw [h.notify x c hx hs] at hc
    cases hc
  constructor
  · intro s hs
    by_cases hsc : s = c
    · subst hsc
      show Function.update o.ref s 0 s = _
      rw [Function.update_self, eq_comm, Finset.card_eq_zero, Finset.eq_empty_iff_forall_notMem]
      exact fun x hx => hnone x (mem_leavers.mp hx).1 (mem_leavers.mp hx).2
    · rw [Function.update_of_ne hsc] at hs
      show Function.update o.ref c 0 s = _
      rw [Function.update_of_ne hsc]
      exact h.ref s hs
  · intro x s hx hs
    have hsc : s ≠ c := fun heq => hnone x hx (heq ▸ hs)
    rw [Function.update_of_ne hsc]
    exact h.notify x s hx hs

/-- A signaler finds a node whose context is leaving. -/
theorem counts (h : CondRefs o st sg) (hc : (sg c).counting = true) {x : C} (hx : st x = .leaves)
    (hnone : o.notify x = none) {v : SignalStage C} (hv : v.counting = true) :
    CondRefs (o.counts c x) st (Function.update sg c v) := by
  have hcounting : ∀ s, (Function.update sg c v s).counting = (sg s).counting := by
    intro s
    by_cases hsc : s = c
    · subst hsc
      rw [Function.update_self, hv, hc]
    · rw [Function.update_of_ne hsc]
  constructor
  · intro s hs
    rw [hcounting] at hs
    by_cases hsc : s = c
    · subst hsc
      have hset : leavers (o.counts s x) st s = insert x (leavers o st s) := by
        ext y
        rw [Finset.mem_insert, mem_leavers, mem_leavers]
        show _ ∧ Function.update o.notify x (some s) y = some s ↔ _
        by_cases hyx : y = x
        · subst hyx
          rw [Function.update_self]
          simp [hx]
        · rw [Function.update_of_ne hyx]
          simp [hyx]
      have hnot : x ∉ leavers o st s := fun hmem => by
        have := (mem_leavers.mp hmem).2
        rw [hnone] at this
        cases this
      rw [hset, Finset.card_insert_of_notMem hnot, ← h.ref s hs]
      exact Function.update_self ..
    · have hset : leavers (o.counts c x) st s = leavers o st s := by
        ext y
        rw [mem_leavers, mem_leavers]
        show _ ∧ Function.update o.notify x (some c) y = some s ↔ _
        by_cases hyx : y = x
        · subst hyx
          rw [Function.update_self, hnone]
          exact iff_of_false (fun hmem => hsc (Option.some.inj hmem.2).symm) nofun
        · rw [Function.update_of_ne hyx]
      rw [hset, ← h.ref s hs]
      exact Function.update_of_ne hsc ..
  · intro y s hy hs
    rw [hcounting]
    replace hs : Function.update o.notify x (some c) y = some s := hs
    by_cases hyx : y = x
    · subst hyx
      rw [Function.update_self] at hs
      exact Option.some.inj hs ▸ hc
    · rw [Function.update_of_ne hyx] at hs
      exact h.notify y s hy hs

/-- A signaler that nobody is left to tell stops counting. -/
theorem settle (h : CondRefs o st sg) (hc : (sg c).counting = true) (hzero : o.ref c = 0)
    {v : SignalStage C} (hv : v.counting = false) :
    CondRefs o st (Function.update sg c v) := by
  have hnone : ∀ x, st x = .leaves ∨ st x = .left → o.notify x ≠ some c := by
    intro x hx hs
    have hcard := h.ref c hc
    rw [hzero, eq_comm, Finset.card_eq_zero] at hcard
    exact Finset.notMem_empty x (hcard ▸ mem_leavers.mpr ⟨hx, hs⟩)
  constructor
  · intro s hs
    by_cases hsc : s = c
    · subst hsc
      rw [Function.update_self, hv] at hs
      cases hs
    · rw [Function.update_of_ne hsc] at hs
      exact h.ref s hs
  · intro x s hx hs
    have hsc : s ≠ c := fun heq => hnone x hx (heq ▸ hs)
    rw [Function.update_of_ne hsc]
    exact h.notify x s hx hs

/-- A signaler goes on, and counts or not as before. -/
theorem goes (h : CondRefs o st sg) {v : SignalStage C} (hv : v.counting = (sg c).counting) :
    CondRefs o st (Function.update sg c v) := by
  refine h.frame (fun _ _ => Iff.rfl) (fun _ _ => rfl) fun s => ?_
  by_cases hsc : s = c
  · subst hsc
    rw [Function.update_self, hv]
  · rw [Function.update_of_ne hsc]

end CondRefs

end Refs

end OpenkalMusl
