import Mathlib.Data.Finset.Card
import OpenkalMusl.Malloc.Groups

/-!
# The slots that are out

A slot is out where its group's words do not have it and no group is laid out in it. An allocation
puts one slot out, `free` takes one back, and nothing else changes which are out: groups that are
made have all their slots in their words, and a group that is freed has none out but the one that is
given back.

## Main definitions

* `Heap.issued`: the slots that are out
* `Heap.Ok`: the words of a group are apart, a group's slot is out of its words, and lists hold
  groups of their class
* `Heap.Evolves`, `Heap.Takes`, `Heap.Frees`: what a function under the lock does

## Main results

* `takes_allocSlot`: an allocation puts one slot out
* `frees_nontrivialFree`: `free` takes one back
* `allocSlot_allocFuel`, `nontrivialFree_availMeta`: the rounds of the two are enough
-/

namespace OpenkalMusl

/-- The slot is of the group, and of neither of its words. -/
structure Group.Out (g : Group) (i : ℕ) : Prop where
  le : i ≤ g.lastIdx.val
  avail : g.availMask.getLsbD i = false
  freed : g.freedMask.getLsbD i = false

/-- The words of a group are of its slots, and apart. -/
structure Group.Ok (g : Group) : Prop where
  avail : ∀ i, g.availMask.getLsbD i = true → i ≤ g.lastIdx.val
  freed : ∀ i, g.freedMask.getLsbD i = true → i ≤ g.lastIdx.val
  apart : ∀ i, g.availMask.getLsbD i = true → g.freedMask.getLsbD i = false
  mapped : g.maplen ≠ 0 → g.nested = none

namespace Heap

/-- No group is laid out in the slot. -/
def Bare (h : Heap) (x : Slot) : Prop := ∀ m g, h.metas m = some g → g.nested ≠ some x

/-- **The slots that are out.** -/
def issued (h : Heap) : Set Slot :=
  {x | (∃ g, h.metas x.group = some g ∧ g.Out x.idx) ∧ h.Bare x}

/-- A record that is taken for a group, and not in use yet. -/
structure Reserved (h : Heap) (m : ℕ) : Prop where
  none : h.metas m = none
  lt : m < h.availMeta
  notFree : m ∉ h.freeMeta

/-- The invariant of the heap between two functions. -/
structure Ok (h : Heap) : Prop where
  groups : ∀ m g, h.metas m = some g → g.Ok
  records : ∀ m g, h.metas m = some g → m < h.availMeta ∧ m ∉ h.freeMeta
  free : ∀ m ∈ h.freeMeta, m < h.availMeta
  freeNodup : h.freeMeta.Nodup
  listed : ∀ sc m, m ∈ h.active sc → ∃ g, h.metas m = some g ∧ g.sizeclass = sc
  nodup : ∀ sc, (h.active sc).Nodup
  nested : ∀ m g x, h.metas m = some g → g.nested = some x →
    ∃ p, h.metas x.group = some p ∧ p.Out x.idx
  once : ∀ m m' g g' x, h.metas m = some g → h.metas m' = some g' → g.nested = some x →
    g'.nested = some x → m = m'

/-- The class and the count of a group stay. -/
def SameShape (h h' : Heap) (m : ℕ) : Prop :=
  ∀ g, h.metas m = some g →
    ∃ g', h'.metas m = some g' ∧ g'.sizeclass = g.sizeclass ∧ g'.lastIdx = g.lastIdx

/-- What is done under the lock and frees no group. -/
structure Evolves (h h' : Heap) : Prop where
  ok : h'.Ok
  shape : ∀ m, SameShape h h' m
  reserved : ∀ m, h.Reserved m → h'.Reserved m

/-- A slot is put out. -/
structure Takes (h : Heap) (x : Slot) (h' : Heap) : Prop extends Evolves h h' where
  fresh : x ∉ h.issued
  issued : ∀ y, y ∈ h'.issued ↔ y = x ∨ y ∈ h.issued

/-- No slot is put out or taken back. -/
structure Keeps (h h' : Heap) : Prop extends Evolves h h' where
  issued : ∀ y, y ∈ h'.issued ↔ y ∈ h.issued

/-- A slot is taken back; the groups with another that is out stay. -/
structure Frees (h : Heap) (x : Slot) (h' : Heap) : Prop where
  ok : h'.Ok
  issued : ∀ y, y ∈ h'.issued ↔ y ≠ x ∧ y ∈ h.issued
  shape : ∀ y ∈ h'.issued, SameShape h h' y.group
  reserved : ∀ m, h.Reserved m → h'.Reserved m

variable {h h' h'' : Heap} {x : Slot}

theorem SameShape.refl (m : ℕ) : SameShape h h m := fun g hg => ⟨g, hg, rfl, rfl⟩

theorem SameShape.trans {m : ℕ} (h₁ : SameShape h h' m) (h₂ : SameShape h' h'' m) :
    SameShape h h'' m := by
  intro g hg
  obtain ⟨g', hg', hsc, hlast⟩ := h₁ g hg
  obtain ⟨g'', hg'', hsc', hlast'⟩ := h₂ g' hg'
  exact ⟨g'', hg'', hsc'.trans hsc, hlast'.trans hlast⟩

theorem Keeps.refl (hok : h.Ok) : Keeps h h :=
  ⟨⟨hok, SameShape.refl, fun _ => id⟩, fun _ => Iff.rfl⟩

theorem Evolves.trans (h₁ : Evolves h h') (h₂ : Evolves h' h'') : Evolves h h'' :=
  ⟨h₂.ok, fun m => (h₁.shape m).trans (h₂.shape m), fun m hm => h₂.reserved m (h₁.reserved m hm)⟩

theorem Keeps.trans (h₁ : Keeps h h') (h₂ : Keeps h' h'') : Keeps h h'' :=
  ⟨h₁.toEvolves.trans h₂.toEvolves, fun y => (h₂.issued y).trans (h₁.issued y)⟩

theorem Keeps.takes (h₁ : Keeps h h') (h₂ : Takes h' x h'') : Takes h x h'' where
  toEvolves := h₁.toEvolves.trans h₂.toEvolves
  fresh := fun hx => h₂.fresh ((h₁.issued x).mpr hx)
  issued := fun y => (h₂.issued y).trans (or_congr_right (h₁.issued y))

theorem Takes.keeps (h₁ : Takes h x h') (h₂ : Keeps h' h'') : Takes h x h'' where
  toEvolves := h₁.toEvolves.trans h₂.toEvolves
  fresh := h₁.fresh
  issued := fun y => (h₂.issued y).trans (h₁.issued y)

/-! ## Lists and counts -/

/-- What changes the lists and the counts alone keeps the slots. -/
theorem keeps_of_lists (hok : h.Ok) (hm : h'.metas = h.metas) (hf : h'.freeMeta = h.freeMeta)
    (ha : h'.availMeta = h.availMeta)
    (hlisted : ∀ sc m, m ∈ h'.active sc → ∃ g, h.metas m = some g ∧ g.sizeclass = sc)
    (hnodup : ∀ sc, (h'.active sc).Nodup) : Keeps h h' := by
  have hissued : h'.issued = h.issued := by
    unfold issued Bare
    rw [hm]
  refine ⟨⟨⟨?_, ?_, ?_, ?_, ?_, hnodup, ?_, ?_⟩, fun m g hg => ⟨g, by rw [hm]; exact hg, rfl, rfl⟩,
    fun m hr => ⟨by rw [hm]; exact hr.none, by rw [ha]; exact hr.lt, by rw [hf]; exact hr.notFree⟩⟩,
    fun y => by rw [hissued]⟩
  · rw [hm]
    exact hok.groups
  · rw [hm, ha, hf]
    exact hok.records
  · rw [ha, hf]
    exact hok.free
  · rw [hf]
    exact hok.freeNodup
  · rw [hm]
    exact hlisted
  · rw [hm]
    exact hok.nested
  · rw [hm]
    exact hok.once

/-- The counts by which maps are kept do not matter to the slots. -/
theorem keeps_of_counts (hok : h.Ok) (hm : h'.metas = h.metas) (hf : h'.freeMeta = h.freeMeta)
    (ha : h'.availMeta = h.availMeta) (hactive : h'.active = h.active) : Keeps h h' := by
  refine keeps_of_lists hok hm hf ha (fun sc m hmem => ?_) fun sc => ?_
  · rw [hactive] at hmem
    exact hok.listed sc m hmem
  · rw [hactive]
    exact hok.nodup sc

theorem active_setActive_self (sc : ℕ) (l : List ℕ) : (h.setActive sc l).active sc = l :=
  Function.update_self ..

theorem active_setActive_of_ne {sc c : ℕ} (hc : c ≠ sc) (l : List ℕ) :
    (h.setActive sc l).active c = h.active c := Function.update_of_ne hc ..

theorem keeps_setActive (hok : h.Ok) {sc : ℕ} {l : List ℕ} (hl : l.Nodup)
    (hmem : ∀ m ∈ l, ∃ g, h.metas m = some g ∧ g.sizeclass = sc) : Keeps h (h.setActive sc l) := by
  refine keeps_of_lists hok rfl rfl rfl (fun c m hm => ?_) fun c => ?_
  · by_cases hc : c = sc
    · subst hc
      rw [active_setActive_self] at hm
      exact hmem m hm
    · rw [active_setActive_of_ne hc] at hm
      exact hok.listed c m hm
  · by_cases hc : c = sc
    · subst hc
      rw [active_setActive_self]
      exact hl
    · rw [active_setActive_of_ne hc]
      exact hok.nodup c

theorem keeps_advance (hok : h.Ok) (sc : ℕ) : Keeps h (h.advance sc) := by
  have hperm : ((h.active sc).tail ++ (h.active sc).take 1).Perm (h.active sc) := by
    cases h.active sc with
    | nil => exact .nil
    | cons m rest =>
      simp only [List.tail_cons, List.take_succ_cons, List.take_zero]
      exact List.perm_append_comm
  refine keeps_setActive hok (hperm.nodup_iff.mpr (hok.nodup sc)) fun m hm => ?_
  exact hok.listed sc m (hperm.mem_iff.mp hm)

theorem keeps_dequeue (hok : h.Ok) (sc m : ℕ) : Keeps h (h.dequeue sc m) :=
  keeps_setActive hok ((hok.nodup sc).erase m) fun n hn =>
    hok.listed sc n (List.mem_of_mem_erase hn)

theorem keeps_queue (hok : h.Ok) {sc m : ℕ} (hm : ∃ g, h.metas m = some g ∧ g.sizeclass = sc)
    (hq : h.queue sc m = some h') : Keeps h h' ∧ h'.active sc = h.active sc ++ [m] ∧
      h'.metas = h.metas ∧ ∀ c, c ≠ sc → h'.active c = h.active c := by
  unfold queue at hq
  split_ifs at hq with hmem
  obtain rfl := Option.some.inj hq
  refine ⟨keeps_setActive hok ?_ fun n hn => ?_, active_setActive_self .., rfl,
    fun c hc => active_setActive_of_ne hc _⟩
  · exact List.nodup_append.mpr ⟨hok.nodup sc, List.nodup_singleton m, fun a ha b hb hab => by
      rw [List.mem_singleton.mp hb] at hab
      exact hmem (hab ▸ ha)⟩
  · rcases List.mem_append.mp hn with hn | hn
    · exact hok.listed sc n hn
    · rw [List.mem_singleton.mp hn]
      exact hm

/-! ## The words of one group -/

theorem metas_setMeta_self (m : ℕ) (g : Group) : (h.setMeta m g).metas m = some g :=
  Function.update_self ..

theorem metas_setMeta_of_ne {m n : ℕ} (hn : n ≠ m) (g : Group) :
    (h.setMeta m g).metas n = h.metas n := Function.update_of_ne hn ..

/-- A group that is changed in its words, and stays of its class, its count and its place. -/
structure Rewords (g g' : Group) : Prop where
  ok : g'.Ok
  sizeclass : g'.sizeclass = g.sizeclass
  lastIdx : g'.lastIdx = g.lastIdx
  nested : g'.nested = g.nested

section Reword

variable {m : ℕ} {g g' : Group}

/-- Where a group stays where it is laid out, so does every other. -/
theorem bare_setMeta (hg : h.metas m = some g) (hn : g'.nested = g.nested) (x : Slot) :
    (h.setMeta m g').Bare x ↔ h.Bare x := by
  constructor
  · intro hb n k hk
    by_cases hnm : n = m
    · subst hnm
      rw [hg] at hk
      obtain rfl := Option.some.inj hk
      rw [← hn]
      exact hb n g' (metas_setMeta_self ..)
    · exact hb n k (by rw [metas_setMeta_of_ne hnm]; exact hk)
  · intro hb n k hk
    by_cases hnm : n = m
    · subst hnm
      rw [metas_setMeta_self] at hk
      obtain rfl := Option.some.inj hk
      rw [hn]
      exact hb n g hg
    · exact hb n k (by rwa [metas_setMeta_of_ne hnm] at hk)

/-- **A group's words are changed**, and not where another group is laid out. -/
theorem evolves_setMeta (hok : h.Ok) (hg : h.metas m = some g) (hr : Rewords g g')
    (hkeep : ∀ i, ¬ h.Bare ⟨m, i⟩ → g.Out i → g'.Out i) : Evolves h (h.setMeta m g') := by
  have hold : ∀ n k, (h.setMeta m g').metas n = some k →
      ∃ k₀, h.metas n = some k₀ ∧ k.nested = k₀.nested ∧ k.sizeclass = k₀.sizeclass := by
    intro n k hk
    by_cases hnm : n = m
    · subst hnm
      rw [metas_setMeta_self] at hk
      obtain rfl := Option.some.inj hk
      exact ⟨g, hg, hr.nested, hr.sizeclass⟩
    · rw [metas_setMeta_of_ne hnm] at hk
      exact ⟨k, hk, rfl, rfl⟩
  have hnew : ∀ n k₀, h.metas n = some k₀ → ∃ k, (h.setMeta m g').metas n = some k ∧
      k.sizeclass = k₀.sizeclass ∧ k.lastIdx = k₀.lastIdx := by
    intro n k₀ hk
    by_cases hnm : n = m
    · subst hnm
      rw [hg] at hk
      obtain rfl := Option.some.inj hk
      exact ⟨g', metas_setMeta_self .., hr.sizeclass, hr.lastIdx⟩
    · exact ⟨k₀, by rw [metas_setMeta_of_ne hnm]; exact hk, rfl, rfl⟩
  refine ⟨⟨fun n k hk => ?_, fun n k hk => ?_, hok.free, hok.freeNodup,
    fun sc n hn => ?_, hok.nodup,
    fun n k x hk hx => ?_, fun n n' k k' x hk hk' hx hx' => ?_⟩, fun n k hk => hnew n k hk,
    fun n hn => ⟨?_, hn.lt, hn.notFree⟩⟩
  · by_cases hnm : n = m
    · subst hnm
      rw [metas_setMeta_self] at hk
      obtain rfl := Option.some.inj hk
      exact hr.ok
    · rw [metas_setMeta_of_ne hnm] at hk
      exact hok.groups n k hk
  · obtain ⟨k₀, hk₀, -⟩ := hold n k hk
    exact hok.records n k₀ hk₀
  · obtain ⟨k₀, hk₀, hsc⟩ := hok.listed sc n hn
    obtain ⟨k, hk, hsame, -⟩ := hnew n k₀ hk₀
    exact ⟨k, hk, hsame.trans hsc⟩
  · obtain ⟨k₀, hk₀, hnest, -⟩ := hold n k hk
    obtain ⟨p, hp, hout⟩ := hok.nested n k₀ x hk₀ (hnest ▸ hx)
    by_cases hxm : x.group = m
    · rw [hxm, hg] at hp
      obtain rfl := Option.some.inj hp
      refine ⟨g', by rw [hxm, metas_setMeta_self], hkeep x.idx (fun hbare => ?_) hout⟩
      rw [show (⟨m, x.idx⟩ : Slot) = x by rw [← hxm]] at hbare
      exact hbare n k₀ hk₀ (hnest ▸ hx)
    · exact ⟨p, by rw [metas_setMeta_of_ne hxm]; exact hp, hout⟩
  · obtain ⟨k₀, hk₀, hnest, -⟩ := hold n k hk
    obtain ⟨k₀', hk₀', hnest', -⟩ := hold n' k' hk'
    exact hok.once n n' k₀ k₀' x hk₀ hk₀' (hnest ▸ hx) (hnest' ▸ hx')
  · have hne : n ≠ m := by
      rintro rfl
      rw [hn.none] at hg
      cases hg
    rw [metas_setMeta_of_ne hne]
    exact hn.none

/-- Which slots are out afterwards: those of the group that are of neither word, and the others as
before. -/
theorem mem_issued_setMeta (hg : h.metas m = some g) (hn : g'.nested = g.nested) (x : Slot) :
    x ∈ (h.setMeta m g').issued ↔
      (x.group = m ∧ g'.Out x.idx ∨ x.group ≠ m ∧ ∃ k, h.metas x.group = some k ∧ k.Out x.idx) ∧
        h.Bare x := by
  show (∃ k, (h.setMeta m g').metas x.group = some k ∧ k.Out x.idx) ∧ (h.setMeta m g').Bare x ↔ _
  rw [bare_setMeta hg hn]
  refine and_congr_left fun _ => ?_
  by_cases hx : x.group = m
  · rw [hx, metas_setMeta_self]
    simp
  · rw [metas_setMeta_of_ne hx]
    simp [hx]

theorem keeps_setMeta (hok : h.Ok) (hg : h.metas m = some g) (hr : Rewords g g')
    (hsame : ∀ i, g'.Out i ↔ g.Out i) : Keeps h (h.setMeta m g') := by
  refine ⟨evolves_setMeta hok hg hr fun i _ => (hsame i).mpr, fun x => ?_⟩
  rw [mem_issued_setMeta hg hr.nested]
  show _ ↔ (∃ k, h.metas x.group = some k ∧ k.Out x.idx) ∧ h.Bare x
  refine and_congr_left fun _ => ?_
  by_cases hx : x.group = m
  · simp [hx, hg, hsame]
  · simp [hx]

/-- **A slot leaves the words of its group.** -/
theorem takes_setMeta (hok : h.Ok) (hg : h.metas m = some g) (hr : Rewords g g') {k : ℕ}
    (hk : ¬ g.Out k) (hout : ∀ i, g'.Out i ↔ g.Out i ∨ i = k) :
    Takes h ⟨m, k⟩ (h.setMeta m g') := by
  -- no group is laid out in it, since it was in the words
  have hbare : h.Bare ⟨m, k⟩ := by
    intro n k' hk' hnest
    obtain ⟨p, hp, hpout⟩ := hok.nested n k' ⟨m, k⟩ hk' hnest
    rw [hg] at hp
    obtain rfl := Option.some.inj hp
    exact hk hpout
  refine ⟨evolves_setMeta hok hg hr fun i _ hi => (hout i).mpr (Or.inl hi), fun hmem => ?_,
    fun x => ?_⟩
  · obtain ⟨⟨p, hp, hpout⟩, -⟩ := hmem
    rw [hg] at hp
    obtain rfl := Option.some.inj hp
    exact hk hpout
  · rw [mem_issued_setMeta hg hr.nested]
    show _ ↔ _ ∨ (∃ p, h.metas x.group = some p ∧ p.Out x.idx) ∧ h.Bare x
    obtain ⟨n, i⟩ := x
    by_cases hx : n = m
    · subst hx
      by_cases hi : i = k
      · subst hi
        simp [hout, hbare]
      · simp [hout, hi, hg]
    · simp [hx]

/-- **A slot enters the words of its group.** -/
theorem frees_setMeta (hok : h.Ok) (hg : h.metas m = some g) (hr : Rewords g g') {k : ℕ}
    (hk : (⟨m, k⟩ : Slot) ∈ h.issued) (hout : ∀ i, g'.Out i ↔ g.Out i ∧ i ≠ k) :
    Frees h ⟨m, k⟩ (h.setMeta m g') := by
  have hevolves : Evolves h (h.setMeta m g') := by
    refine evolves_setMeta hok hg hr fun i hi hgi => (hout i).mpr ⟨hgi, ?_⟩
    rintro rfl
    exact hi hk.2
  refine ⟨hevolves.ok, fun x => ?_, fun x _ => hevolves.shape _, hevolves.reserved⟩
  rw [mem_issued_setMeta hg hr.nested]
  show _ ↔ _ ∧ (∃ p, h.metas x.group = some p ∧ p.Out x.idx) ∧ h.Bare x
  obtain ⟨n, i⟩ := x
  by_cases hx : n = m
  · subst hx
    simp only [true_and, hout, ne_eq, not_true_eq_false, false_and, or_false, hg, Option.some.injEq,
      exists_eq_left', Slot.mk.injEq]
    tauto
  · simp [hx]

end Reword

/-! ## Taking a slot -/

section Take

variable {m sc : ℕ} {g : Group} {mask first : BitVec 32}

theorem rewords_avail (hg : g.Ok)
    (hmask : ∀ i, mask.getLsbD i = true → g.availMask.getLsbD i = true) :
    Rewords g { g with availMask := mask } where
  ok := ⟨fun i hi => hg.avail i (hmask i hi), hg.freed,
    fun i hi => hg.apart i (hmask i hi), hg.mapped⟩
  sizeclass := rfl
  lastIdx := rfl
  nested := rfl

/-- **A slot is taken out of the word that is taken from.** -/
theorem takes_avail (hok : h.Ok) (hg : h.metas m = some g) {k : ℕ}
    (hk : g.availMask.getLsbD k = true)
    (hbits : ∀ i, mask.getLsbD i = (g.availMask.getLsbD i && decide (i ≠ k))) :
    Takes h ⟨m, k⟩ (h.setMeta m { g with availMask := mask }) := by
  have hgok := hok.groups m g hg
  refine takes_setMeta hok hg (rewords_avail hgok fun i hi => ?_) (fun hout => ?_) fun i => ?_
  · rw [hbits] at hi
    exact (Bool.and_eq_true_iff.mp hi).1
  · rw [hout.avail] at hk
    cases hk
  · constructor
    · rintro ⟨hle, havail, hfreed⟩
      by_cases hi : i = k
      · exact Or.inr hi
      · refine Or.inl ⟨hle, ?_, hfreed⟩
        simpa [hbits, hi] using havail
    · rintro (hout | rfl)
      · exact ⟨hout.le, by simp [hbits, hout.avail], hout.freed⟩
      · exact ⟨hgok.avail _ hk, by simp [hbits], hgok.apart _ hk⟩

/-- **The first slot of a group is taken.** -/
theorem takes_takeFirst (hok : h.Ok) (hg : h.metas m = some g) (hmask : g.availMask = mask)
    (hne : mask ≠ 0) (ht : h.takeFirst m mask = some (first, h')) :
    Takes h ⟨m, first.ctz.toNat⟩ h' ∧ first ≠ 0 ∧ h'.active = h.active := by
  subst hmask
  simp only [takeFirst, hg, Option.some.injEq, Prod.mk.injEq] at ht
  obtain ⟨rfl, rfl⟩ := ht
  rw [Mask.ctz_lowest hne]
  exact ⟨takes_avail hok hg (BitVec.getLsbD_true_ctz_of_ne_zero hne) (Mask.getLsbD_sub_lowest hne),
    fun h0 => hne (Mask.lowest_eq_zero_iff.mp h0), rfl⟩

/-- What a group has freed and may use is moved to the word that is taken from. -/
theorem keeps_activateGroup (hok : h.Ok) (ha : h.activateGroup m = some (mask, h')) :
    Keeps h h' ∧ h'.active = h.active ∧ (∃ g', h'.metas m = some g' ∧ g'.availMask = mask) ∧
      ∀ n, n ≠ m → h'.metas n = h.metas n := by
  unfold activateGroup at ha
  cases hg : h.metas m with
  | none =>
    rw [hg] at ha
    cases ha
  | some g =>
    simp only [hg] at ha
    split_ifs at ha with hzero
    simp only [Option.some.injEq, Prod.mk.injEq] at ha
    obtain ⟨rfl, rfl⟩ := ha
    have hgok := hok.groups m g hg
    rw [ne_eq, not_not] at hzero
    refine ⟨keeps_setMeta hok hg
      ⟨⟨fun i hi => ?_, fun i hi => ?_, fun i hi => ?_, hgok.mapped⟩, rfl, rfl, rfl⟩
        fun i => ?_, rfl,
      ⟨_, metas_setMeta_self .., rfl⟩, fun n hn => metas_setMeta_of_ne hn _⟩
    · simp only [BitVec.getLsbD_and, Bool.and_eq_true] at hi
      exact hgok.freed i hi.1
    · simp only [BitVec.getLsbD_and, Bool.and_eq_true] at hi
      exact hgok.freed i hi.1
    · simp only [BitVec.getLsbD_and, Bool.and_eq_true] at hi
      simp [hi.2]
    · -- the two words together are what the freed ones were
      constructor
      · rintro ⟨hle, havail, hfreed⟩
        simp only [BitVec.getLsbD_and, BitVec.getLsbD_not] at havail hfreed
        refine ⟨hle, by simp [hzero], ?_⟩
        have hlt : i < 32 := lt_of_le_of_lt hle g.lastIdx.isLt
        cases hact : g.act.getLsbD i <;> simp_all
      · rintro ⟨hle, -, hfreed⟩
        exact ⟨hle, by simp [hfreed], by simp [hfreed]⟩

theorem keeps_skipFree (hok : h.Ok) (hs : h.skipFree sc = some h') :
    Keeps h h' ∧ (∀ c, c ≠ sc → h'.active c = h.active c) := by
  unfold skipFree at hs
  split at hs
  · cases hs
  · obtain rfl := Option.some.inj hs
    split_ifs
    · exact ⟨keeps_advance hok sc, fun c hc => active_setActive_of_ne hc _⟩
    · exact ⟨Keeps.refl hok, fun _ _ => rfl⟩

theorem keeps_useMore (hok : h.Ok) (hs : h.useMore sc = some h') :
    Keeps h h' ∧ (∀ c, c ≠ sc → h'.active c = h.active c) := by
  unfold useMore at hs
  split at hs
  · cases hs
  · rename_i m rest hactive
    cases hg : h.metas m with
    | none =>
      rw [hg] at hs
      cases hs
    | some g =>
      simp only [hg] at hs
      split_ifs at hs
      · obtain rfl := Option.some.inj hs
        exact ⟨keeps_advance hok sc, fun c hc => active_setActive_of_ne hc _⟩
      · obtain rfl := Option.some.inj hs
        have hgok := hok.groups m g hg
        refine ⟨keeps_setMeta hok hg ⟨⟨hgok.avail, hgok.freed, hgok.apart, hgok.mapped⟩,
          rfl, rfl, rfl⟩
          fun i => ?_, fun _ _ => rfl⟩
        exact ⟨fun ho => ⟨ho.le, ho.avail, ho.freed⟩, fun ho => ⟨ho.le, ho.avail, ho.freed⟩⟩
      · obtain rfl := Option.some.inj hs
        exact ⟨Keeps.refl hok, fun _ _ => rfl⟩

theorem keeps_decayBounces (hok : h.Ok) (c : ℕ) : Keeps h (h.decayBounces c) := by
  unfold decayBounces
  split
  · exact Keeps.refl hok
  · exact keeps_of_counts hok rfl rfl rfl rfl

theorem decayBounces_metas (c : ℕ) : (h.decayBounces c).metas = h.metas := by
  unfold decayBounces
  split <;> rfl

theorem decayBounces_active (c : ℕ) : (h.decayBounces c).active = h.active := by
  unfold decayBounces
  split <;> rfl

theorem takes_takeActivated (hok : h.Ok) (ht : h.takeActivated sc = some (first, h')) :
    ∃ m, (h'.active sc).head? = some m ∧ Takes h ⟨m, first.ctz.toNat⟩ h' ∧ first ≠ 0 ∧
      h'.active = h.active := by
  unfold takeActivated at ht
  cases hm : (h.active sc).head? with
  | none =>
    rw [hm] at ht
    cases ht
  | some m =>
    simp only [hm] at ht
    cases ha : h.activateGroup m with
    | none =>
      rw [ha] at ht
      cases ht
    | some r =>
      obtain ⟨mask, h₁⟩ := r
      simp only [ha] at ht
      split_ifs at ht with hzero
      obtain ⟨hkeep, hactive, ⟨g', hg', hmask⟩, -⟩ := keeps_activateGroup hok ha
      have hdecay := keeps_decayBounces hkeep.ok ((h₁.metas m).elim 0 Group.sizeclass)
      obtain ⟨htakes, hfirst, hsame⟩ := takes_takeFirst hdecay.ok
        (by rw [decayBounces_metas]; exact hg') hmask hzero ht
      rw [decayBounces_active, hactive] at hsame
      exact ⟨m, by rw [hsame]; exact hm, (hkeep.trans hdecay).takes htakes, hfirst, hsame⟩

/-- **`try_avail`** takes a slot of the group that is then the head of the class's list, or leaves
the list empty. -/
theorem takes_tryAvail (hok : h.Ok) (ht : h.tryAvail sc = some (first, h')) :
    (first = 0 ∧ Keeps h h' ∧ h'.active sc = [] ∨
      ∃ m, (h'.active sc).head? = some m ∧ Takes h ⟨m, first.ctz.toNat⟩ h' ∧ first ≠ 0) ∧
    ∀ c, c ≠ sc → h'.active c = h.active c := by
  unfold tryAvail at ht
  split at ht
  · rename_i hnil
    simp only [Option.some.injEq, Prod.mk.injEq] at ht
    obtain ⟨rfl, rfl⟩ := ht
    exact ⟨Or.inl ⟨rfl, Keeps.refl hok, hnil⟩, fun _ _ => rfl⟩
  · rename_i m rest hactive
    cases hg : h.metas m with
    | none =>
      rw [hg] at ht
      cases ht
    | some g =>
      simp only [hg] at ht
      by_cases havail : g.availMask ≠ 0
      · rw [if_pos havail] at ht
        obtain ⟨htakes, hfirst, hsame⟩ := takes_takeFirst hok hg rfl havail ht
        refine ⟨Or.inr ⟨m, ?_, htakes, hfirst⟩, fun c _ => by rw [hsame]⟩
        rw [hsame, hactive]
        rfl
      · rw [if_neg havail] at ht
        generalize hl : (if g.freedMask = 0 then rest else rest ++ [m]) = l at ht
        -- the list without its head, or from the next of it on
        have hsub : l.Nodup ∧ ∀ n ∈ l, n ∈ h.active sc := by
          have hnodup := hok.nodup sc
          rw [hactive] at hnodup ⊢
          subst hl
          split_ifs
          · exact ⟨hnodup.of_cons, fun n hn => List.mem_cons_of_mem _ hn⟩
          · have hperm : (rest ++ [m]).Perm (m :: rest) := List.perm_append_comm
            exact ⟨hperm.nodup_iff.mpr hnodup, fun n hn => hperm.mem_iff.mp hn⟩
        have hkeep : Keeps h (h.setActive sc l) :=
          keeps_setActive hok hsub.1 fun n hn => hok.listed sc n (hsub.2 n hn)
        split_ifs at ht with hnil
        · simp only [Option.some.injEq, Prod.mk.injEq] at ht
          obtain ⟨rfl, rfl⟩ := ht
          exact ⟨Or.inl ⟨rfl, hkeep, by rw [active_setActive_self, hnil]⟩,
            fun c hc => active_setActive_of_ne hc _⟩
        · unfold tryNext at ht
          obtain ⟨h₂, hbind, ht⟩ := Option.bind_eq_some_iff.mp ht
          obtain ⟨h₁, hskip, huse⟩ := Option.bind_eq_some_iff.mp hbind
          obtain ⟨hk₁, hc₁⟩ := keeps_skipFree hkeep.ok hskip
          obtain ⟨hk₂, hc₂⟩ := keeps_useMore hk₁.ok huse
          obtain ⟨n, hhead, htakes, hfirst, hsame⟩ := takes_takeActivated hk₂.ok ht
          refine ⟨Or.inr ⟨n, hhead, ((hkeep.trans hk₁).trans hk₂).takes htakes, hfirst⟩, ?_⟩
          intro c hc
          rw [hsame, hc₂ c hc, hc₁ c hc, active_setActive_of_ne hc]

end Take

/-! ## Counts and classes -/

section Counts

open Malloc

theorem halveWhile_bounds {p : ℕ → Bool} (hp : ∀ c, p c = true → 2 ≤ c) (fuel : ℕ) {cnt : ℕ}
    (hcnt : 1 ≤ cnt) : 1 ≤ halveWhile p fuel cnt ∧ halveWhile p fuel cnt ≤ cnt := by
  induction fuel generalizing cnt with
  | zero => exact ⟨hcnt, le_rfl⟩
  | succ fuel ih =>
    unfold halveWhile
    split_ifs with hpc
    · have htwo := hp cnt hpc
      have hhalf : 1 ≤ cnt / 2 := by omega
      obtain ⟨hlow, hhigh⟩ := ih hhalf
      exact ⟨hlow, hhigh.trans (Nat.div_le_self ..)⟩
    · exact ⟨hcnt, le_rfl⟩

theorem classSize_le (sc : ℕ) : classSize sc ≤ 8191 := by
  have hall : ∀ n ∈ sizeClasses, n ≤ 8191 := by decide
  unfold classSize
  rw [List.getD_eq_getElem?_getD]
  cases hsc : sizeClasses[sc]? with
  | none => exact Nat.zero_le _
  | some n => exact hall n (List.mem_of_getElem? hsc)

/-- A group has a slot, and no more than a word has positions. -/
theorem classCount_bounds (usage sc : ℕ) : 1 ≤ classCount usage sc ∧ classCount usage sc ≤ 32 := by
  unfold classCount
  by_cases hsc : sc < 9
  · rw [if_pos hsc]
    have hrows : ∀ sc < 9, ∀ n ∈ [(smallCntTab.getD sc (0, 0, 0)).1,
        (smallCntTab.getD sc (0, 0, 0)).2.1, (smallCntTab.getD sc (0, 0, 0)).2.2],
        1 ≤ n ∧ n ≤ 32 := by decide
    have hrow := hrows sc hsc
    simp only [List.mem_cons, List.not_mem_nil, or_false, forall_eq_or_imp, forall_eq] at hrow
    simp only
    split_ifs
    · exact hrow.2.2
    · exact hrow.2.1
    · exact hrow.1
  · rw [if_neg hsc]
    have hmed : ∀ r < 4, 1 ≤ medCntTab.getD r 0 ∧ medCntTab.getD r 0 ≤ 32 := by decide
    obtain ⟨hlow, hhigh⟩ := hmed (sc % 4) (Nat.mod_lt _ (by decide))
    simp only
    -- an odd count is not halved, nor one that is too small for its bytes to matter
    have heven := halveWhile_bounds (p := fun c => c % 2 = 0 && decide (4 * c > usage))
      (fun c hc => by
        simp only [Bool.and_eq_true, decide_eq_true_eq] at hc
        omega) (medCntTab.getD (sc % 4) 0) hlow
    have hbytes := halveWhile_bounds
      (p := fun c => decide (unit * classSize sc * c ≥ 65536 * unit))
      (fun c hc => by
        have hle := classSize_le sc
        rw [decide_eq_true_eq] at hc
        by_contra hlt
        have hone : c ≤ 1 := by omega
        have hmul : unit * classSize sc * c ≤ unit * classSize sc * 1 := Nat.mul_le_mul_left _ hone
        simp only [unit] at hc hmul
        omega) (halveWhile (fun c => c % 2 = 0 && decide (4 * c > usage))
          (medCntTab.getD (sc % 4) 0) (medCntTab.getD (sc % 4) 0)) heven.1
    exact ⟨hbytes.1, hbytes.2.trans (heven.2.trans hhigh)⟩

theorem mappedCount_bounds (h : Heap) (nosmall : Bool) (usage sc req : ℕ) {cnt : ℕ} (hcnt : 1 ≤ cnt)
    (hle : cnt ≤ 32) : 1 ≤ (h.mappedCount nosmall usage sc req cnt).1 ∧
      (h.mappedCount nosmall usage sc req cnt).1 ≤ 32 := by
  have hreduced : 1 ≤ reducedCount h.pagesize sc cnt ∧ reducedCount h.pagesize sc cnt ≤ 32 := by
    unfold reducedCount
    simp only
    split_ifs <;> omega
  unfold mappedCount
  simp only
  split_ifs <;> simp only [le_refl, true_and] <;> omega

/-- A group of two slots is larger than its class. -/
theorem lt_sizeToClass {sc cnt : ℕ} (hsc : sc < 48) (hcnt : 2 ≤ cnt) :
    sc < sizeToClass (unit + cnt * (unit * classSize sc) - ib) := by
  -- in units, the request is for as many as the slots have
  have hunits : (unit + cnt * (unit * classSize sc) - ib + ib - 1) / 16 = cnt * classSize sc := by
    have hassoc : cnt * (16 * classSize sc) = 16 * (cnt * classSize sc) := Nat.mul_left_comm ..
    simp only [unit, ib, hassoc]
    omega
  have htwo : 2 * classSize sc ≤ cnt * classSize sc := Nat.mul_le_mul_right _ hcnt
  have hsmall : ∀ sc < 9, classSize sc = sc + 1 := by decide
  have hlarge : ∀ sc < 48, 8 ≤ sc → 2 ^ (sc / 4 + 1) ≤ classSize sc := by decide
  unfold sizeToClass
  simp only
  rw [hunits]
  split_ifs with hfew h₁ h₂ h₂
  · -- fewer than ten units are their own class
    by_cases hnine : sc < 9
    · have := hsmall sc hnine
      omega
    · have hpow := hlarge sc hsc (by omega)
      have : 2 ^ 3 ≤ 2 ^ (sc / 4 + 1) := Nat.pow_le_pow_right (by decide) (by omega)
      omega
  all_goals
    have hlog : sc / 4 + 2 ≤ (cnt * classSize sc + 1).log2 ∨ sc < 8 := by
      by_cases height : sc < 8
      · exact Or.inr height
      · left
        have hpow := hlarge sc hsc (by omega)
        have hdouble : 2 ^ (sc / 4 + 2) = 2 * 2 ^ (sc / 4 + 1) := pow_succ' 2 (sc / 4 + 1)
        exact (Nat.le_log2 (by omega)).mpr (by omega)
    have hthree : 3 ≤ (cnt * classSize sc + 1).log2 := (Nat.le_log2 (by omega)).mpr (by omega)
    simp only [clz32]
    omega

end Counts

/-! ## Making a group -/

section Make

open Malloc

variable {m sc cnt used maplen : ℕ} {g : Group} {nested : Option Slot}

theorem newGroup_lastIdx (hcnt : 1 ≤ cnt) (hle : cnt ≤ 32) :
    (newGroup sc cnt used maplen nested).lastIdx.val = cnt - 1 := by
  show (cnt - 1) % 32 = cnt - 1
  exact Nat.mod_eq_of_lt (by omega)

theorem newGroup_freed (hused : used ≤ cnt - 1) (i : ℕ) :
    (newGroup sc cnt used maplen nested).freedMask.getLsbD i =
      (decide (i < 32) && decide (i ≤ cnt - 1) && !decide (i ≤ used)) := by
  show (Mask.through 32 (cnt - 1) - Mask.through 32 used).getLsbD i = _
  rw [Mask.getLsbD_sub_of_subset fun j hj => ?_, Mask.getLsbD_through, Mask.getLsbD_through]
  · cases decide (i < 32) <;> simp
  · rw [Mask.getLsbD_through] at hj ⊢
    simp only [Bool.and_eq_true, decide_eq_true_eq] at hj ⊢
    omega

/-- A new group has every slot in its words. -/
theorem newGroup_ok (hcnt : 1 ≤ cnt) (hle : cnt ≤ 32) (hused : used ≤ cnt - 1)
    (hmapped : maplen ≠ 0 → nested = none) :
    (newGroup sc cnt used maplen nested).Ok ∧
      (∀ i, ¬ (newGroup sc cnt used maplen nested).Out i) ∧
      (newGroup sc cnt used maplen nested).availMask.getLsbD 0 = true := by
  have hlast : (newGroup sc cnt used maplen nested).lastIdx.val = cnt - 1 :=
    newGroup_lastIdx hcnt hle
  have havail : ∀ i, (newGroup sc cnt used maplen nested).availMask.getLsbD i =
      (decide (i < 32) && decide (i ≤ used)) := Mask.getLsbD_through used
  have hfreed : ∀ i, (newGroup sc cnt used maplen nested).freedMask.getLsbD i = _ :=
    newGroup_freed hused
  refine ⟨⟨fun i hi => ?_, fun i hi => ?_, fun i hi => ?_, hmapped⟩, fun i hout => ?_,
    by simp [havail]⟩
  · rw [havail] at hi
    simp only [Bool.and_eq_true, decide_eq_true_eq] at hi
    omega
  · rw [hfreed] at hi
    simp only [Bool.and_eq_true, decide_eq_true_eq] at hi
    omega
  · rw [havail] at hi
    simp only [Bool.and_eq_true, decide_eq_true_eq] at hi
    simp [hfreed, hi.2]
  · obtain ⟨hi, ha, hf⟩ := hout
    rw [hlast] at hi
    rw [havail] at ha
    rw [hfreed] at hf
    simp only [show i < 32 by omega, hi, decide_true, Bool.true_and, Bool.not_eq_eq_eq_not,
      Bool.not_false] at ha hf
    rw [ha] at hf
    cases hf

/-- A record is put to use: the group's slots of neither word are out, and the slot it is laid
out in is not. -/
theorem mem_issued_newGroup (hm : h.Reserved m) (x : Slot) :
    x ∈ (h.setMeta m g).issued ↔
      (x.group = m ∧ g.Out x.idx ∨ ∃ k, h.metas x.group = some k ∧ k.Out x.idx) ∧ h.Bare x ∧
        g.nested ≠ some x := by
  have hbare : (h.setMeta m g).Bare x ↔ h.Bare x ∧ g.nested ≠ some x := by
    constructor
    · refine fun hb => ⟨fun n k hk => hb n k ?_, hb m g (metas_setMeta_self ..)⟩
      have hne : n ≠ m := by
        rintro rfl
        rw [hm.none] at hk
        cases hk
      rw [metas_setMeta_of_ne hne]
      exact hk
    · rintro ⟨hb, hg⟩ n k hk
      by_cases hnm : n = m
      · subst hnm
        rw [metas_setMeta_self] at hk
        obtain rfl := Option.some.inj hk
        exact hg
      · rw [metas_setMeta_of_ne hnm] at hk
        exact hb n k hk
  show (∃ k, (h.setMeta m g).metas x.group = some k ∧ k.Out x.idx) ∧ (h.setMeta m g).Bare x ↔ _
  rw [hbare]
  refine and_congr_left fun _ => ?_
  by_cases hx : x.group = m
  · rw [hx, metas_setMeta_self, hm.none]
    simp
  · rw [metas_setMeta_of_ne hx]
    simp [hx]

/-- A record is put to use, for a group with every slot in its words. -/
theorem issued_newGroup (hm : h.Reserved m) (hfull : ∀ i, ¬ g.Out i) (x : Slot) :
    x ∈ (h.setMeta m g).issued ↔ x ∈ h.issued ∧ g.nested ≠ some x := by
  rw [mem_issued_newGroup hm]
  simp only [hfull, and_false, false_or]
  exact and_assoc.symm

theorem ok_newGroup (hok : h.Ok) (hm : h.Reserved m) (hg : g.Ok)
    (hnest : ∀ y, g.nested = some y → y ∈ h.issued) : (h.setMeta m g).Ok := by
  have hne : ∀ {n k}, h.metas n = some k → n ≠ m := by
    rintro n k hk rfl
    rw [hm.none] at hk
    cases hk
  have hset : ∀ {n k}, h.metas n = some k → (h.setMeta m g).metas n = some k :=
    fun hk => (metas_setMeta_of_ne (hne hk) g).trans hk
  have hcases : ∀ n k, (h.setMeta m g).metas n = some k → n = m ∧ k = g ∨ h.metas n = some k := by
    intro n k hk
    by_cases hnm : n = m
    · subst hnm
      rw [metas_setMeta_self] at hk
      exact Or.inl ⟨rfl, (Option.some.inj hk).symm⟩
    · rw [metas_setMeta_of_ne hnm] at hk
      exact Or.inr hk
  refine ⟨fun n k hk => ?_, fun n k hk => ?_, hok.free, hok.freeNodup, fun c n hn => ?_, hok.nodup,
    fun n k y hk hy => ?_, fun n n' k k' y hk hk' hy hy' => ?_⟩
  · rcases hcases n k hk with ⟨-, rfl⟩ | hk
    · exact hg
    · exact hok.groups n k hk
  · rcases hcases n k hk with ⟨rfl, -⟩ | hk
    · exact ⟨hm.lt, hm.notFree⟩
    · exact hok.records n k hk
  · obtain ⟨k, hk, hsc⟩ := hok.listed c n hn
    exact ⟨k, hset hk, hsc⟩
  · -- what it is laid out in is out, and of another group
    have hold : ∃ p, h.metas y.group = some p ∧ p.Out y.idx := by
      rcases hcases n k hk with ⟨-, rfl⟩ | hk
      · exact (hnest y hy).1
      · exact hok.nested n k y hk hy
    obtain ⟨p, hp, hout⟩ := hold
    exact ⟨p, hset hp, hout⟩
  · rcases hcases n k hk with ⟨hn, hkg⟩ | hold <;> rcases hcases n' k' hk' with ⟨hn', hkg'⟩ | hold'
    · rw [hn, hn']
    · exact absurd hy' ((hnest y (hkg ▸ hy)).2 n' k' hold')
    · exact absurd hy ((hnest y (hkg' ▸ hy')).2 n k hold)
    · exact hok.once n n' k k' y hold hold' hy hy'

/-- `alloc_meta` takes a record that is in no use. -/
theorem keeps_allocMeta (hok : h.Ok) {ok : Bool} (ha : h.allocMeta ok = (some m, h')) :
    Keeps h h' ∧ h'.Reserved m ∧ (∀ n, h.Reserved n → n ≠ m) ∧ h'.active = h.active := by
  have hsame : ∀ {h₁ : Heap}, h₁.metas = h.metas → h₁.active = h.active → h₁.Ok →
      (∀ n, h.Reserved n → h₁.Reserved n) → Keeps h h₁ := by
    intro h₁ hm hact hok₁ hres
    have hissued : h₁.issued = h.issued := by
      unfold issued Bare
      rw [hm]
    exact ⟨⟨hok₁, fun n g hg => ⟨g, by rw [hm]; exact hg, rfl, rfl⟩, hres⟩,
      fun y => by rw [hissued]⟩
  unfold allocMeta at ha
  cases hf : h.freeMeta with
  | cons n rest =>
    simp only [hf, Prod.mk.injEq, Option.some.injEq] at ha
    obtain ⟨rfl, rfl⟩ := ha
    have hnodup := hok.freeNodup
    rw [hf, List.nodup_cons] at hnodup
    have hrest : ∀ k ∈ rest, k ∈ h.freeMeta := fun k hk => hf ▸ List.mem_cons_of_mem _ hk
    have hmem : n ∈ h.freeMeta := hf ▸ List.mem_cons_self ..
    have hnone : h.metas n = none := by
      cases hn : h.metas n with
      | none => rfl
      | some g => exact absurd hmem (hok.records n g hn).2
    refine ⟨hsame rfl rfl ⟨hok.groups, fun k g hg => ?_, fun k hk => hok.free k (hrest k hk),
      hnodup.2, hok.listed, hok.nodup, hok.nested, hok.once⟩ fun k hk => ?_,
      ⟨hnone, hok.free n hmem, hnodup.1⟩, fun k hk => ?_, rfl⟩
    · exact ⟨(hok.records k g hg).1, fun hk => (hok.records k g hg).2 (hrest k hk)⟩
    · exact ⟨hk.none, hk.lt, fun hmem => hk.notFree (hrest k hmem)⟩
    · rintro rfl
      exact hk.notFree hmem
  | nil =>
    simp only [hf] at ha
    split_ifs at ha
    · simp only [Prod.mk.injEq, Option.some.injEq] at ha
      obtain ⟨rfl, rfl⟩ := ha
      have hnone : h.metas h.availMeta = none := by
        cases hn : h.metas h.availMeta with
        | none => rfl
        | some g => exact absurd (hok.records _ g hn).1 (lt_irrefl _)
      refine ⟨hsame rfl rfl ⟨hok.groups, fun k g hg => ⟨?_, List.not_mem_nil⟩, nofun,
        List.nodup_nil,
        hok.listed, hok.nodup, hok.nested, hok.once⟩ fun k hk =>
          ⟨hk.none, Nat.lt_succ_of_lt hk.lt, List.not_mem_nil⟩,
        ⟨hnone, Nat.lt_succ_self _, List.not_mem_nil⟩, fun k hk => hk.lt.ne, rfl⟩
      exact Nat.lt_succ_of_lt (hok.records k g hg).1
    · cases ha

theorem allocMeta_none {ok : Bool} (ha : h.allocMeta ok = (none, h')) : h' = h := by
  unfold allocMeta at ha
  split at ha
  · cases ha
  · split_ifs at ha
    · cases ha
    · exact (Prod.mk.inj ha).2.symm

/-- A record that is in no use is queued. -/
theorem keeps_queueMeta (hok : h.Ok) (hm : h.Reserved m) :
    (h.queueMeta m).Ok ∧ (h.queueMeta m).issued = h.issued ∧
      ∀ n, n ≠ m → h.Reserved n → (h.queueMeta m).Reserved n := by
  have hmem : ∀ k, k ∈ h.freeMeta ++ [m] → k ∈ h.freeMeta ∨ k = m := by
    intro k hk
    exact (List.mem_append.mp hk).imp_right List.mem_singleton.mp
  refine ⟨⟨hok.groups, fun k g hg => ⟨(hok.records k g hg).1, fun hk => ?_⟩, fun k hk => ?_, ?_,
    hok.listed, hok.nodup, hok.nested, hok.once⟩, rfl, fun n hne hn =>
      ⟨hn.none, hn.lt, fun hk => ?_⟩⟩
  · rcases hmem k hk with hk | rfl
    · exact (hok.records k g hg).2 hk
    · cases hm.none.symm.trans hg
  · rcases hmem k hk with hk | rfl
    · exact hok.free k hk
    · exact hm.lt
  · refine List.nodup_append.mpr ⟨hok.freeNodup, List.nodup_singleton m, fun a ha b hb hab => ?_⟩
    rw [List.mem_singleton.mp hb] at hab
    exact hm.notFree (hab ▸ ha)
  · rcases hmem n hk with hk | rfl
    · exact hn.notFree hk
    · exact hne rfl

theorem keeps_accountBounce (hok : h.Ok) (c : ℕ) : Keeps h (h.accountBounce c) := by
  unfold accountBounce
  split
  · exact Keeps.refl hok
  · split_ifs <;> exact keeps_of_counts hok rfl rfl rfl rfl

theorem keeps_stepSeq (hok : h.Ok) : Keeps h h.stepSeq := by
  unfold stepSeq
  split_ifs <;> exact keeps_of_counts hok rfl rfl rfl rfl

theorem accountBounce_active (c : ℕ) : (h.accountBounce c).active = h.active := by
  unfold accountBounce
  split
  · rfl
  · split_ifs <;> rfl

theorem stepSeq_active : h.stepSeq.active = h.active := by
  unfold stepSeq
  split_ifs <;> rfl

/-- What `alloc_slot` does: it takes a slot of the group that is then the head of the class's list,
or fails, and leaves the lists of smaller classes alone. -/
def SlotSpec (alloc : Heap → ℕ → ℕ → Option (Option ℕ × Heap)) : Prop :=
  ∀ h sc req r h', h.Ok → alloc h sc req = some (r, h') →
    (match r with
      | none => Keeps h h'
      | some idx => ∃ m, (h'.active sc).head? = some m ∧ Takes h ⟨m, idx⟩ h') ∧
    ∀ c < sc, h'.active c = h.active c

/-- What `alloc_group` does: it makes a group of the class with its first slot to be taken, or
fails. -/
structure Makes (h : Heap) (sc : ℕ) (r : Option ℕ) (h' : Heap) : Prop where
  keeps : Keeps h h'
  active : ∀ c ≤ sc, h'.active c = h.active c
  group : ∀ m, r = some m → ∃ g, h'.metas m = some g ∧ g.sizeclass = sc ∧
    g.availMask.getLsbD 0 = true

/-- A group that could not be made leaves its record as it was. -/
theorem Makes.failed {h₁ h₂ : Heap} (hmeta : Keeps h h₁) (hm : h₁.Reserved m)
    (hother : ∀ n, h.Reserved n → n ≠ m) (hthen : Keeps h₁ h₂)
    (hactive : ∀ c ≤ sc, h₂.active c = h.active c) : Makes h sc none (h₂.queueMeta m) := by
  have hm₂ := hthen.reserved m hm
  obtain ⟨hok, hissued, hres⟩ := keeps_queueMeta hthen.ok hm₂
  have hboth := hmeta.trans hthen
  refine ⟨⟨⟨hok, hboth.shape, fun n hn => hres n (hother n hn) (hboth.reserved n hn)⟩, fun y => ?_⟩,
    hactive, nofun⟩
  rw [hissued]
  exact hboth.issued y

/-- A record that was taken is put to use. -/
theorem evolves_newGroup (hthen : Evolves h h') (hm : h'.Reserved m)
    (hother : ∀ n, h.Reserved n → n ≠ m) (hg : g.Ok)
    (hnest : ∀ y, g.nested = some y → y ∈ h'.issued) : Evolves h (h'.setMeta m g) := by
  refine ⟨ok_newGroup hthen.ok hm hg hnest, fun n => ?_, fun n hn => ?_⟩
  · refine (hthen.shape n).trans fun k hk => ⟨k, ?_, rfl, rfl⟩
    rw [metas_setMeta_of_ne]
    · exact hk
    · rintro rfl
      rw [hm.none] at hk
      cases hk
  · have hn' := hthen.reserved n hn
    exact ⟨by rw [metas_setMeta_of_ne (hother n hn)]; exact hn'.none, hn'.lt, hn'.notFree⟩

/-- A record that was taken becomes the group's. -/
theorem Makes.made {h₁ h₂ : Heap} (hmeta : Keeps h h₁) (hm : h₁.Reserved m)
    (hother : ∀ n, h.Reserved n → n ≠ m) (hthen : Evolves h₁ h₂)
    (hactive : ∀ c ≤ sc, h₂.active c = h.active c) (hg : g.Ok) (hfull : ∀ i, ¬ g.Out i)
    (hsc : g.sizeclass = sc) (hfirst : g.availMask.getLsbD 0 = true)
    (hnest : ∀ y, g.nested = some y → y ∈ h₂.issued)
    (hissued : ∀ y, y ∈ h₂.issued ∧ g.nested ≠ some y ↔ y ∈ h₁.issued) :
    Makes h sc (some m) (h₂.setMeta m g) := by
  have hm₂ := hthen.reserved m hm
  have hboth := hmeta.toEvolves.trans hthen
  refine ⟨⟨evolves_newGroup hboth hm₂ hother hg hnest, fun y => ?_⟩, hactive, ?_⟩
  · rw [issued_newGroup hm₂ hfull, hissued]
    exact hmeta.issued y
  · rintro n hn
    obtain rfl := Option.some.inj hn
    exact ⟨g, metas_setMeta_self .., hsc, hfirst⟩

/-- A group that is laid out in a slot has two slots or more. -/
theorem two_le_nested {size pagesize : ℕ} (hcnt : 1 ≤ cnt)
    (hnest : ¬ size * (if cnt = 1 ∧ size * cnt + unit ≤ pagesize / 2 then 2 else cnt) + unit >
      pagesize / 2) :
    2 ≤ if cnt = 1 ∧ size * cnt + unit ≤ pagesize / 2 then 2 else cnt := by
  split_ifs at hnest ⊢ with hone
  · exact le_rfl
  · by_contra hlt
    have hcnt₁ : cnt = 1 := by omega
    exact hone ⟨hcnt₁, by omega⟩

/-- **`alloc_group`.** -/
theorem makes_allocGroup {env : HeapEnv} {alloc : Heap → ℕ → ℕ → Option (Option ℕ × Heap)}
    (hspec : SlotSpec alloc) {req : ℕ} {r : Option ℕ} (hok : h.Ok) (hsc : sc < 48)
    (ha : h.allocGroup env alloc sc req = some (r, h')) : Makes h sc r h' := by
  unfold allocGroup at ha
  cases hmeta : h.allocMeta (env.metaOk sc) with
  | mk rm h₁ =>
    cases rm with
    | none =>
      rw [hmeta] at ha
      simp only [Option.some.injEq, Prod.mk.injEq] at ha
      obtain ⟨rfl, rfl⟩ := ha
      rw [allocMeta_none hmeta]
      exact ⟨Keeps.refl hok, fun _ _ => rfl, nofun⟩
    | some m =>
      obtain ⟨hkeep, hm, hother, hactive⟩ := keeps_allocMeta hok hmeta
      rw [hmeta] at ha
      simp only at ha
      obtain ⟨hlow, hhigh⟩ := classCount_bounds (h₁.usageByClass sc) sc
      generalize hcnt : classCount (h₁.usageByClass sc) sc = cnt at ha hlow hhigh
      generalize hbump : (if cnt = 1 ∧ unit * classSize sc * cnt + unit ≤ h₁.pagesize / 2 then 2
        else cnt) = cnt₂ at ha
      have hbounds : 1 ≤ cnt₂ ∧ cnt₂ ≤ 32 := by
        subst hbump
        split_ifs <;> omega
      by_cases hmapped : unit * classSize sc * cnt₂ + unit > h₁.pagesize / 2
      · rw [if_pos hmapped] at ha
        have hbounce := keeps_accountBounce hkeep.ok sc
        have hseq := hbounce.trans (keeps_stepSeq hbounce.ok)
        have hlists : ((h₁.accountBounce sc).stepSeq).active = h.active := by
          rw [stepSeq_active, accountBounce_active, hactive]
        generalize (h₁.accountBounce sc).stepSeq = h₂ at ha hseq hlists
        generalize (if sc % 2 = 0 ∧ sc < 32 then h₁.usageByClass sc + h₂.usageByClass (sc + 1)
          else h₁.usageByClass sc) = usage at ha
        obtain ⟨hone, hmost⟩ := mappedCount_bounds h₂ (h₁.isBouncing sc) usage sc req
          hbounds.1 hbounds.2
        generalize h₂.mappedCount (h₁.isBouncing sc) usage sc req cnt₂ = c at ha hone hmost
        split_ifs at ha with hmap
        · -- no memory for its mapping
          simp only [Option.some.injEq, Prod.mk.injEq] at ha
          obtain ⟨rfl, rfl⟩ := ha
          exact Makes.failed hkeep hm hother hseq fun c _ => by rw [hlists]
        · simp only [Option.some.injEq, Prod.mk.injEq] at ha
          obtain ⟨rfl, rfl⟩ := ha
          obtain ⟨hgok, hfull, hfirst⟩ := newGroup_ok hone hmost
            (min_le_right ((4096 - unit) / (unit * classSize sc) - 1) (c.1 - 1)) fun _ => rfl
          have husage : Keeps h₂ (h₂.addUsage sc c.1) := keeps_of_counts hseq.ok rfl rfl rfl rfl
          have hthen := hseq.trans husage
          refine Makes.made hkeep hm hother hthen.toEvolves (fun c _ => ?_) hgok hfull
            rfl hfirst nofun
            fun y => ?_
          · exact congrFun hlists c
          · rw [hthen.issued y]
            exact ⟨fun hy => hy.1, fun hy => ⟨hy, nofun⟩⟩
      · -- laid out in a slot of a larger class
        rw [if_neg hmapped] at ha
        have hlarger := lt_sizeToClass hsc (hbump ▸ two_le_nested hlow (hbump ▸ hmapped))
        generalize sizeToClass (unit + cnt₂ * (unit * classSize sc) - ib) = j at ha hlarger
        cases halloc : alloc h₁ j (unit + cnt₂ * (unit * classSize sc) - ib) with
        | none =>
          rw [halloc] at ha
          cases ha
        | some r' =>
          obtain ⟨ridx, h₂⟩ := r'
          obtain ⟨hdoes, hlists⟩ := hspec h₁ j _ ridx h₂ hkeep.ok halloc
          have hlists' : ∀ c ≤ sc, h₂.active c = h.active c := by
            intro c hc
            rw [hlists c (by omega), hactive]
          simp only [halloc] at ha
          cases ridx with
          | none =>
            simp only [Option.some.injEq, Prod.mk.injEq] at ha
            obtain ⟨rfl, rfl⟩ := ha
            exact Makes.failed hkeep hm hother hdoes hlists'
          | some idx =>
            obtain ⟨g, hhead, htakes⟩ := hdoes
            simp only [hhead, Option.some.injEq, Prod.mk.injEq] at ha
            obtain ⟨rfl, rfl⟩ := ha
            obtain ⟨hgok, hfull, hfirst⟩ := newGroup_ok hbounds.1 hbounds.2 (le_refl (cnt₂ - 1))
              fun hzero => absurd rfl hzero
            have husage : Keeps h₂ (h₂.addUsage sc cnt₂) :=
              keeps_of_counts htakes.ok rfl rfl rfl rfl
            have hthen := htakes.keeps husage
            refine Makes.made hkeep hm hother hthen.toEvolves hlists' hgok hfull rfl hfirst
              (fun y hy => ?_) fun y => ?_
            · obtain rfl := Option.some.inj hy
              exact (hthen.issued _).mpr (Or.inl rfl)
            · -- the slot it is laid out in was taken for it
              rw [hthen.issued y]
              constructor
              · rintro ⟨hy | hy, hne⟩
                · exact absurd (congrArg some hy.symm) hne
                · exact hy
              · refine fun hy => ⟨Or.inr hy, fun heq => htakes.fresh ?_⟩
                rw [Option.some.inj heq]
                exact hy

/-- The first slot of a new group is taken. -/
theorem takes_first (hok : h.Ok) (hg : h.metas m = some g) (hfirst : g.availMask.getLsbD 0 = true) :
    Takes h ⟨m, 0⟩ (h.setMeta m { g with availMask := g.availMask - 1 }) := by
  refine takes_avail hok hg hfirst fun i => ?_
  show (g.availMask - Mask.bit 32 0).getLsbD i = _
  have hbit : ∀ j, (Mask.bit 32 0).getLsbD j = decide (0 = j) := fun j => by
    simp [Mask.getLsbD_bit]
  rw [Mask.getLsbD_sub_of_subset, hbit]
  · simp [eq_comm]
  · intro j hj
    rw [hbit, decide_eq_true_eq] at hj
    rw [← hj]
    exact hfirst

/-- **`alloc_slot`**, by induction on how many groups are laid out in one another. -/
theorem takes_allocSlot (env : HeapEnv) (fuel : ℕ) : SlotSpec (allocSlot env fuel) := by
  induction fuel with
  | zero =>
    intro h sc req r h' _ ha
    cases ha
  | succ fuel ih =>
    intro h sc req r h' hok ha
    unfold allocSlot at ha
    by_cases hsc : 48 ≤ sc
    · rw [if_pos hsc] at ha
      cases ha
    rw [if_neg hsc] at ha
    cases htry : h.tryAvail sc with
    | none =>
      rw [htry] at ha
      cases ha
    | some r₁ =>
      obtain ⟨first, h₁⟩ := r₁
      simp only [htry] at ha
      obtain ⟨htaken, hlists⟩ := takes_tryAvail hok htry
      rcases htaken with ⟨hzero, hkeep, hnil⟩ | ⟨m, hhead, htakes, hfirst⟩
      · rw [if_neg (not_not.mpr hzero)] at ha
        cases hgroup : allocGroup env (allocSlot env fuel) h₁ sc req with
        | none =>
          rw [hgroup] at ha
          cases ha
        | some r₂ =>
          obtain ⟨rm, h₂⟩ := r₂
          have hmakes := makes_allocGroup ih hkeep.ok (Nat.lt_of_not_le hsc) hgroup
          have hlists₂ : ∀ c < sc, h₂.active c = h.active c := fun c hc =>
            (hmakes.active c hc.le).trans (hlists c hc.ne)
          simp only [hgroup] at ha
          cases rm with
          | none =>
            simp only [Option.some.injEq, Prod.mk.injEq] at ha
            obtain ⟨rfl, rfl⟩ := ha
            exact ⟨hkeep.trans hmakes.keeps, hlists₂⟩
          | some m =>
            obtain ⟨g, hg, hclass, hfirst⟩ := hmakes.group m rfl
            simp only [hg, Option.map_eq_some_iff, Prod.mk.injEq] at ha
            obtain ⟨h₃, hqueue, rfl, rfl⟩ := ha
            have htakes := takes_first hmakes.keeps.ok hg hfirst
            obtain ⟨hqueued, hself, -, hothers⟩ :=
              keeps_queue htakes.ok ⟨_, metas_setMeta_self .., hclass⟩ hqueue
            refine ⟨⟨m, ?_, (hkeep.trans hmakes.keeps).takes (htakes.keeps hqueued)⟩,
              fun c hc => ?_⟩
            · -- the class had no group, so that the new one is the first
              rw [hself]
              show (h₂.active sc ++ [m]).head? = some m
              rw [hmakes.active sc le_rfl, hnil]
              rfl
            · rw [hothers c hc.ne]
              exact hlists₂ c hc
      · rw [if_pos hfirst] at ha
        simp only [Option.some.injEq, Prod.mk.injEq] at ha
        obtain ⟨rfl, rfl⟩ := ha
        exact ⟨⟨m, hhead, htakes⟩, fun c hc => hlists c hc.ne⟩

/-- A group asks for a slot of a larger class alone. -/
theorem allocGroup_congr {env : HeapEnv} {alloc alloc' : Heap → ℕ → ℕ → Option (Option ℕ × Heap)}
    (hsc : sc < 48) (hsame : ∀ h j req, sc < j → alloc h j req = alloc' h j req)
    (h : Heap) (req : ℕ) :
    h.allocGroup env alloc sc req = h.allocGroup env alloc' sc req := by
  unfold allocGroup
  split
  · rfl
  · rename_i m h₁ _
    simp only
    obtain ⟨hlow, -⟩ := classCount_bounds (h₁.usageByClass sc) sc
    generalize classCount (h₁.usageByClass sc) sc = cnt at hlow
    by_cases hmapped : unit * classSize sc *
        (if cnt = 1 ∧ unit * classSize sc * cnt + unit ≤ h₁.pagesize / 2 then 2 else cnt) + unit >
        h₁.pagesize / 2
    · rw [if_pos hmapped, if_pos hmapped]
    · rw [if_neg hmapped, if_neg hmapped]
      have hlarger := lt_sizeToClass hsc (two_le_nested hlow hmapped)
      rw [hsame _ _ _ hlarger]

/-- **The classes bound how deep groups are laid out in one another**: more rounds
change nothing. -/
theorem allocSlot_fuel (env : HeapEnv) {fuel : ℕ} (hfuel : 48 ≤ sc + fuel) (h : Heap) (req : ℕ) :
    allocSlot env (fuel + 1) h sc req = allocSlot env fuel h sc req := by
  induction fuel generalizing h sc req with
  | zero =>
    unfold allocSlot
    exact if_pos (by omega)
  | succ fuel ih =>
    rw [allocSlot, allocSlot]
    by_cases hsc : 48 ≤ sc
    · rw [if_pos hsc, if_pos hsc]
    · rw [if_neg hsc, if_neg hsc]
      have hgroup : ∀ h₁, allocGroup env (allocSlot env (fuel + 1)) h₁ sc req =
          allocGroup env (allocSlot env fuel) h₁ sc req := fun h₁ =>
        allocGroup_congr (by omega) (fun h j req hj => ih (by omega) h req) h₁ req
      simp only [hgroup]

theorem allocSlot_allocFuel (env : HeapEnv) (k : ℕ) (h : Heap) (sc req : ℕ) :
    allocSlot env (allocFuel + k) h sc req = allocSlot env allocFuel h sc req := by
  induction k with
  | zero => rfl
  | succ k ih =>
    rw [← ih]
    have hfuel : 48 ≤ sc + (allocFuel + k) := by
      simp only [allocFuel]
      omega
    exact allocSlot_fuel env hfuel h req

end Make

/-! ## Giving a slot back -/

section Free

variable {m : ℕ} {g : Group}

/-- A group that is unlisted is in no list, and its record is as it was. -/
theorem keeps_unlist (hok : h.Ok) (hg : h.metas m = some g) (hu : h.unlist m g = some h') :
    Keeps h h' ∧ h'.metas m = some g ∧ ∀ sc, m ∉ h'.active sc := by
  -- a group is in no list but that of its class
  have hclass : ∀ sc, m ∈ h.active sc → sc = g.sizeclass := by
    intro sc hmem
    obtain ⟨k, hk, hsc⟩ := hok.listed sc m hmem
    rw [hg] at hk
    obtain rfl := Option.some.inj hk
    exact hsc.symm
  unfold unlist at hu
  split_ifs at hu with hmem
  · have hkeep := keeps_dequeue hok g.sizeclass m
    have hgone : ∀ sc, m ∉ (h.dequeue g.sizeclass m).active sc := by
      intro sc hin
      by_cases hsc : sc = g.sizeclass
      · rw [hsc, dequeue, active_setActive_self] at hin
        exact ((hok.nodup g.sizeclass).mem_erase_iff.mp hin).1 rfl
      · rw [dequeue, active_setActive_of_ne hsc] at hin
        exact hsc (hclass sc hin)
    have hsame : (h.dequeue g.sizeclass m).metas m = some g := hg
    generalize h.dequeue g.sizeclass m = h₁ at hu hkeep hgone hsame
    simp only at hu
    split at hu
    · rename_i next hnext
      split_ifs at hu with hhead
      · -- the next of the list is activated, and is another group
        obtain ⟨⟨mask, h₂⟩, hact, rfl⟩ := Option.map_eq_some_iff.mp hu
        obtain ⟨hkeep₂, hlists, -, hothers⟩ := keeps_activateGroup hkeep.ok hact
        refine ⟨hkeep.trans hkeep₂, ?_, fun sc => ?_⟩
        · rw [hothers m]
          · exact hsame
          · rintro rfl
            exact hgone _ (List.mem_of_mem_head? hnext)
        · rw [hlists]
          exact hgone sc
      · obtain rfl := Option.some.inj hu
        exact ⟨hkeep, hsame, hgone⟩
    · obtain rfl := Option.some.inj hu
      exact ⟨hkeep, hsame, hgone⟩
  · obtain rfl := Option.some.inj hu
    exact ⟨Keeps.refl hok, hg, fun sc hin => hmem (hclass sc hin ▸ hin)⟩

/-- A group that is unlisted brings no record into use. -/
theorem metas_unlist (hu : h.unlist m g = some h') {n : ℕ} {k : Group} (hk : h'.metas n = some k) :
    ∃ k', h.metas n = some k' := by
  unfold unlist at hu
  split_ifs at hu with hmem
  · have hsame : (h.dequeue g.sizeclass m).metas = h.metas := rfl
    generalize h.dequeue g.sizeclass m = h₁ at hu hsame
    simp only at hu
    rw [← hsame]
    split at hu
    · rename_i next _
      split_ifs at hu
      · obtain ⟨⟨mask, h₂⟩, hact, rfl⟩ := Option.map_eq_some_iff.mp hu
        unfold activateGroup at hact
        cases hnext : h₁.metas next with
        | none =>
          rw [hnext] at hact
          cases hact
        | some p =>
          simp only [hnext] at hact
          split_ifs at hact
          simp only [Option.some.injEq, Prod.mk.injEq] at hact
          obtain ⟨-, rfl⟩ := hact
          by_cases hn : n = next
          · exact ⟨p, hn ▸ hnext⟩
          · rw [metas_setMeta_of_ne hn] at hk
            exact ⟨k, hk⟩
      · obtain rfl := Option.some.inj hu
        exact ⟨k, hk⟩
    · obtain rfl := Option.some.inj hu
      exact ⟨k, hk⟩
  · obtain rfl := Option.some.inj hu
    exact ⟨k, hk⟩

/-- What is cleared of a group. -/
theorem clearGroup_fields : (h.clearGroup m g).metas = Function.update h.metas m none ∧
    (h.clearGroup m g).freeMeta = h.freeMeta ∧ (h.clearGroup m g).availMeta = h.availMeta ∧
    (h.clearGroup m g).active = h.active := by
  have hseq : ∀ k : Heap, k.stepSeq.metas = k.metas ∧ k.stepSeq.freeMeta = k.freeMeta ∧
      k.stepSeq.availMeta = k.availMeta ∧ k.stepSeq.active = k.active := by
    intro k
    unfold stepSeq
    split_ifs <;> exact ⟨rfl, rfl, rfl, rfl⟩
  have hrecord : ∀ (k : Heap) (c : ℕ), (k.recordSeq c).metas = k.metas ∧
      (k.recordSeq c).freeMeta = k.freeMeta ∧ (k.recordSeq c).availMeta = k.availMeta ∧
      (k.recordSeq c).active = k.active := by
    intro k c
    unfold recordSeq
    split <;> exact ⟨rfl, rfl, rfl, rfl⟩
  unfold clearGroup
  split_ifs <;> simp only [hseq, hrecord, and_self]

/-- **A group that has one slot out, and no other group laid out in it, is cleared.** The slot that
it is laid out in is out then. -/
theorem ok_clearGroup (hok : h.Ok) (hg : h.metas x.group = some g) (hx : x ∈ h.issued)
    (honly : ∀ i, g.Out i → i = x.idx) (hlist : ∀ sc, x.group ∉ h.active sc) :
    (h.clearGroup x.group g).Ok ∧ (h.clearGroup x.group g).Reserved x.group ∧
      ∀ y, y ∈ (h.clearGroup x.group g).issued ↔ y ≠ x ∧ y ∈ h.issued ∨ g.nested = some y := by
  obtain ⟨hmetas, hfree, havail, hactive⟩ := clearGroup_fields (h := h) (m := x.group) (g := g)
  generalize h.clearGroup x.group g = h' at hmetas hfree havail hactive
  have hself : h'.metas x.group = none := by rw [hmetas, Function.update_self]
  have hother : ∀ {n}, n ≠ x.group → h'.metas n = h.metas n := fun hn => by
    rw [hmetas, Function.update_of_ne hn]
  have hold : ∀ n k, h'.metas n = some k ↔ n ≠ x.group ∧ h.metas n = some k := by
    intro n k
    by_cases hn : n = x.group
    · simp [hn, hself]
    · simp [hn, hother hn]
  -- another group is in no slot of it, since the one that is out has none
  have haway : ∀ n k y, h.metas n = some k → k.nested = some y → y.group ≠ x.group := by
    intro n k y hk hy hyx
    obtain ⟨p, hp, hout⟩ := hok.nested n k y hk hy
    rw [hyx, hg] at hp
    obtain rfl := Option.some.inj hp
    obtain rfl : y = x := Slot.ext hyx (honly _ hout)
    exact hx.2 n k hk hy
  refine ⟨⟨fun n k hk => ?_, fun n k hk => ?_, ?_, ?_, fun sc n hn => ?_, ?_, fun n k y hk hy => ?_,
    fun n n' k k' y hk hk' => ?_⟩, ⟨hself, ?_, ?_⟩, fun y => ?_⟩
  · exact hok.groups n k ((hold n k).mp hk).2
  · rw [havail, hfree]
    exact hok.records n k ((hold n k).mp hk).2
  · rw [havail, hfree]
    exact hok.free
  · rw [hfree]
    exact hok.freeNodup
  · rw [hactive] at hn
    obtain ⟨k, hk, hsc⟩ := hok.listed sc n hn
    refine ⟨k, (hold n k).mpr ⟨?_, hk⟩, hsc⟩
    rintro rfl
    exact hlist sc hn
  · rw [hactive]
    exact hok.nodup
  · have hk₀ := ((hold n k).mp hk).2
    obtain ⟨p, hp, hout⟩ := hok.nested n k y hk₀ hy
    exact ⟨p, (hold _ _).mpr ⟨haway n k y hk₀ hy, hp⟩, hout⟩
  · exact hok.once n n' k k' y ((hold n k).mp hk).2 ((hold n' k').mp hk').2
  · rw [havail]
    exact (hok.records _ _ hg).1
  · rw [hfree]
    exact (hok.records _ _ hg).2
  · show (∃ p, h'.metas y.group = some p ∧ p.Out y.idx) ∧ h'.Bare y ↔
      y ≠ x ∧ ((∃ p, h.metas y.group = some p ∧ p.Out y.idx) ∧ h.Bare y) ∨ _
    constructor
    · rintro ⟨⟨p, hp, hout⟩, hbare⟩
      obtain ⟨hne, hp⟩ := (hold _ _).mp hp
      by_cases hy : g.nested = some y
      · exact Or.inr hy
      · refine Or.inl ⟨fun hyx => hne (hyx ▸ rfl), ⟨p, hp, hout⟩, fun n k hk => ?_⟩
        by_cases hn : n = x.group
        · rw [hn, hg] at hk
          obtain rfl := Option.some.inj hk
          exact hy
        · exact hbare n k ((hold n k).mpr ⟨hn, hk⟩)
    · rintro (⟨hyx, ⟨p, hp, hout⟩, hbare⟩ | hy)
      · refine ⟨⟨p, (hold _ _).mpr ⟨fun hgroup => hyx ?_, hp⟩, hout⟩,
          fun n k hk => hbare n k ((hold n k).mp hk).2⟩
        rw [hgroup, hg] at hp
        obtain rfl := Option.some.inj hp
        exact Slot.ext hgroup (honly _ hout)
      · obtain ⟨p, hp, hout⟩ := hok.nested _ g y hg hy
        refine ⟨⟨p, (hold _ _).mpr ⟨haway _ g y hg hy, hp⟩, hout⟩, fun n k hk hky => ?_⟩
        obtain ⟨hne, hk⟩ := (hold n k).mp hk
        exact hne (hok.once n _ k g y hk hg hky hy)

theorem Keeps.frees (h₁ : Keeps h h') (h₂ : Frees h' x h'') : Frees h x h'' where
  ok := h₂.ok
  issued := fun y => (h₂.issued y).trans (and_congr_right fun _ => h₁.issued y)
  shape := fun y hy => (h₁.shape _).trans (h₂.shape y hy)
  reserved := fun m hm => h₂.reserved m (h₁.reserved m hm)

/-- A slot that is out is put in the word of those that were freed. -/
theorem frees_freed (hok : h.Ok) (hg : h.metas x.group = some g) (hx : x ∈ h.issued)
    {mask : BitVec 32}
    (hbits : ∀ i, mask.getLsbD i = (g.freedMask.getLsbD i || decide (i = x.idx))) :
    Frees h x (h.setMeta x.group { g with freedMask := mask }) := by
  have hgok := hok.groups _ g hg
  have hout : g.Out x.idx := by
    obtain ⟨⟨p, hp, hout⟩, -⟩ := hx
    rw [hg] at hp
    obtain rfl := Option.some.inj hp
    exact hout
  have hrewords : Rewords g { g with freedMask := mask } := by
    refine ⟨⟨hgok.avail, fun i hi => ?_, fun i hi => ?_, hgok.mapped⟩, rfl, rfl, rfl⟩
    · simp only [hbits, Bool.or_eq_true, decide_eq_true_eq] at hi
      rcases hi with hi | rfl
      · exact hgok.freed i hi
      · exact hout.le
    · have hne : i ≠ x.idx := by
        rintro rfl
        rw [hout.avail] at hi
        cases hi
      simp [hbits, hgok.apart i hi, hne]
  refine frees_setMeta hok hg hrewords hx fun i => ?_
  constructor
  · rintro ⟨hle, havail, hfreed⟩
    simp only [hbits, Bool.or_eq_false_iff, decide_eq_false_iff_not] at hfreed
    exact ⟨⟨hle, havail, hfreed.1⟩, hfreed.2⟩
  · rintro ⟨ho, hne⟩
    exact ⟨ho.le, ho.avail, by simp [hbits, ho.freed, hne]⟩

/-- A slot is freed and its group stays. -/
theorem frees_markFreed (hok : h.Ok) (hg : h.metas x.group = some g) (hx : x ∈ h.issued)
    (hf : h.markFreed x g = some h') : Frees h x h' := by
  have hlt : x.idx < 32 := by
    obtain ⟨⟨p, -, hout⟩, -⟩ := hx
    exact lt_of_le_of_lt hout.le p.lastIdx.isLt
  unfold markFreed at hf
  obtain ⟨h₁, hqueue, rfl⟩ := Option.map_eq_some_iff.mp hf
  have hkeep : Keeps h h₁ ∧ h₁.metas = h.metas := by
    split_ifs at hqueue
    · obtain ⟨hkeep, -, hmetas, -⟩ := keeps_queue hok ⟨g, hg, rfl⟩ hqueue
      exact ⟨hkeep, hmetas⟩
    · obtain rfl := Option.some.inj hqueue
      exact ⟨Keeps.refl hok, rfl⟩
  exact hkeep.1.frees (frees_freed hkeep.1.ok (hkeep.2 ▸ hg) ((hkeep.1.issued x).mpr hx)
    (Mask.getLsbD_or_bit hlt))

/-- The last slot of a group that is out: the words have the others. -/
theorem out_eq_of_last (hout : g.Out m)
    (hlast : (g.freedMask ||| g.availMask) + Mask.bit 32 m = g.all) {i : ℕ}
    (hi : g.Out i) : i = m := by
  have hlt : ∀ {k}, g.Out k → k < 32 := fun hk => lt_of_le_of_lt hk.le g.lastIdx.isLt
  have hnot : ∀ {k}, g.Out k → (g.freedMask ||| g.availMask).getLsbD k = false := fun hk => by
    rw [BitVec.getLsbD_or, hk.freed, hk.avail]
    rfl
  have hbit := Mask.getLsbD_add_bit (hlt hout) (hnot hout) i
  rw [hlast, Group.all, Mask.getLsbD_through, hnot hi] at hbit
  simpa [hlt hi, hi.le] using hbit

/-- The group of the slot is cleared, which was the last of it that was out. The slot that the group
was laid out in is out then. -/
structure Clears (h : Heap) (x : Slot) (g : Group) (h' : Heap) : Prop where
  ok : h'.Ok
  cleared : h'.Reserved x.group
  issued : ∀ y, y ∈ h'.issued ↔ y ≠ x ∧ y ∈ h.issued ∨ g.nested = some y
  shape : ∀ m, m ≠ x.group → SameShape h h' m
  reserved : ∀ m, h.Reserved m → m ≠ x.group ∧ h'.Reserved m

theorem clears_clearGroup (hok : h.Ok) (hg : h.metas x.group = some g) (hx : x ∈ h.issued)
    (hout : g.Out x.idx) (hlast : (g.freedMask ||| g.availMask) + Mask.bit 32 x.idx = g.all)
    (hu : h.unlist x.group g = some h') : Clears h x g (h'.clearGroup x.group g) := by
  obtain ⟨hkeep, hg', hlist⟩ := keeps_unlist hok hg hu
  obtain ⟨hok', hres', hissued'⟩ := ok_clearGroup hkeep.ok hg' ((hkeep.issued x).mpr hx)
    (fun i hi => out_eq_of_last hout hlast hi) hlist
  obtain ⟨hmetas, hfree, havail, -⟩ := clearGroup_fields (h := h') (m := x.group) (g := g)
  have hother : ∀ {n}, n ≠ x.group → (h'.clearGroup x.group g).metas n = h'.metas n := fun hn => by
    rw [hmetas, Function.update_of_ne hn]
  refine ⟨hok', hres', fun y => ?_, fun m hm => ?_, fun m hm => ?_⟩
  · rw [hissued', hkeep.issued]
  · refine (hkeep.shape m).trans fun k hk => ⟨k, ?_, rfl, rfl⟩
    rw [hother hm]
    exact hk
  · have hne : m ≠ x.group := by
      rintro rfl
      rw [hm.none] at hg
      cases hg
    have hm' := hkeep.reserved m hm
    exact ⟨hne, by rw [hother hne]; exact hm'.none, by rw [havail]; exact hm'.lt,
      by rw [hfree]; exact hm'.notFree⟩

/-- The record of a cleared group is queued after what is done with the slot it was laid out in. -/
theorem Clears.frees (hc : Clears h x g h') (hok : h''.Ok)
    (hissued : ∀ y, y ∈ h''.issued ↔ y ≠ x ∧ y ∈ h.issued)
    (hshape : ∀ y ∈ h''.issued, SameShape h' h'' y.group)
    (hreserved : ∀ m, h'.Reserved m → h''.Reserved m) : Frees h x (h''.queueMeta x.group) := by
  have hres := hreserved _ hc.cleared
  obtain ⟨hokq, hissuedq, hresq⟩ := keeps_queueMeta hok hres
  refine ⟨hokq, fun y => ?_, fun y hy => ?_, fun m hm => ?_⟩
  · rw [hissuedq]
    exact hissued y
  · rw [hissuedq] at hy
    have hne : y.group ≠ x.group := by
      obtain ⟨p, hp, -⟩ := hy.1
      intro heq
      rw [heq, hres.none] at hp
      cases hp
    exact (hc.shape _ hne).trans (hshape y hy)
  · obtain ⟨hne, hm'⟩ := hc.reserved m hm
    exact hresq m hne (hreserved m hm')

/-- **`nontrivial_free`**, by induction on how many groups are freed with the slot. -/
theorem frees_nontrivialFree (fuel : ℕ) (hok : h.Ok) (hx : x ∈ h.issued)
    (hf : nontrivialFree fuel h x = some h') : Frees h x h' := by
  induction fuel generalizing h h' x with
  | zero => cases hf
  | succ fuel ih =>
    obtain ⟨g, hg, hout⟩ := hx.1
    unfold nontrivialFree at hf
    simp only [hg] at hf
    by_cases hlast : (g.freedMask ||| g.availMask) + Mask.bit 32 x.idx = g.all ∧
      h.okayToFree x.group g = true
    · rw [if_pos hlast] at hf
      cases hu : h.unlist x.group g with
      | none =>
        rw [hu] at hf
        cases hf
      | some h₁ =>
        have hc := clears_clearGroup hok hg hx hout hlast.1 hu
        simp only [hu] at hf
        generalize h₁.clearGroup x.group g = h₂ at hf hc
        by_cases hmaplen : g.maplen ≠ 0
        · -- a group with a mapping of its own is laid out in no slot
          rw [if_pos hmaplen] at hf
          obtain rfl := Option.some.inj hf
          have hnone := (hok.groups _ g hg).mapped hmaplen
          refine hc.frees hc.ok (fun y => ?_) (fun y _ => SameShape.refl _) fun _ => id
          rw [hc.issued y, hnone]
          simp
        · rw [if_neg hmaplen] at hf
          cases hn : g.nested with
          | none =>
            rw [hn] at hf
            cases hf
          | some y =>
            simp only [hn] at hf
            obtain ⟨h₃, hfree, rfl⟩ := Option.map_eq_some_iff.mp hf
            have hfrees := ih hc.ok ((hc.issued y).mpr (Or.inr hn)) hfree
            refine hc.frees hfrees.ok (fun z => ?_) hfrees.shape hfrees.reserved
            rw [hfrees.issued, hc.issued, hn]
            have hnot : y ∉ h.issued := fun hy => hy.2 _ g hg hn
            constructor
            · rintro ⟨hne, hz | hz⟩
              · exact hz
              · exact absurd (Option.some.inj hz).symm hne
            · rintro ⟨hne, hz⟩
              refine ⟨?_, Or.inl ⟨hne, hz⟩⟩
              rintro rfl
              exact hnot hz
    · rw [if_neg hlast] at hf
      exact frees_markFreed hok hg hx hf

/-- **No more groups are freed with a slot than there are**: more rounds change nothing. -/
theorem nontrivialFree_fuel {fuel : ℕ} {l : Finset ℕ} (hcard : l.card ≤ fuel)
    (hl : ∀ m g, h.metas m = some g → m ∈ l) :
    nontrivialFree (fuel + 1) h x = nontrivialFree fuel h x := by
  induction fuel generalizing h x l with
  | zero =>
    have hnone : h.metas x.group = none := by
      cases hg : h.metas x.group with
      | none => rfl
      | some g =>
        have hmem := hl _ g hg
        rw [Finset.card_eq_zero.mp (Nat.le_zero.mp hcard)] at hmem
        exact absurd hmem (Finset.notMem_empty _)
    simp only [nontrivialFree, hnone]
  | succ fuel ih =>
    rw [nontrivialFree, nontrivialFree]
    cases hg : h.metas x.group with
    | none => rfl
    | some g =>
      cases hu : h.unlist x.group g with
      | none => simp only [hu]
      | some h₁ =>
        -- the record is cleared before the slot it was laid out in is given back
        have hcleared : ∀ y, nontrivialFree (fuel + 1) (h₁.clearGroup x.group g) y =
            nontrivialFree fuel (h₁.clearGroup x.group g) y := by
          have hmem := hl _ g hg
          have hcard' : (l.erase x.group).card ≤ fuel := by
            rw [Finset.card_erase_of_mem hmem]
            omega
          refine fun y => ih hcard' fun m k hk => ?_
          rw [clearGroup_fields.1] at hk
          by_cases hm : m = x.group
          · rw [hm, Function.update_self] at hk
            cases hk
          · rw [Function.update_of_ne hm] at hk
            obtain ⟨k', hk'⟩ := metas_unlist hu hk
            exact Finset.mem_erase.mpr ⟨hm, hl m k' hk'⟩
        simp only [hu, hcleared]

theorem nontrivialFree_availMeta (hok : h.Ok) (k : ℕ) (x : Slot) :
    nontrivialFree (h.availMeta + k) h x = nontrivialFree h.availMeta h x := by
  induction k with
  | zero => rfl
  | succ k ih =>
    rw [← ih]
    have hcard : (Finset.range h.availMeta).card ≤ h.availMeta + k := by
      rw [Finset.card_range]
      exact Nat.le_add_right ..
    exact nontrivialFree_fuel hcard fun m g hg => Finset.mem_range.mpr (hok.records m g hg).1

end Free

end Heap

end OpenkalMusl
