import OpenkalMusl.Malloc.ThreadCache
import OpenkalMusl.Transition.Custody

/-!
# Where a slot is

Each slot that is out has one keeper: the program, a position of one thread's cache, or a thread
that is in `malloc` or `free` with it. A step of a thread takes at most one slot from a keeper and
gives at most one to a keeper, and the slots that are out change with the heap's words.

A plain store to the word of the freed slots is made by a thread that is alone, and what it has read
is then what the word has: the library turns its locks off when the last thread takes one, and that
thread has nothing read at a lock.

## Main definitions

* `CacheSystem.Holds`: who has which slot
* `CacheSystem.Inv`: the invariant of the threads
* `CacheSystem.At`: the places of a slot

## Main results

* `Inv.step`: a step keeps the invariant
* `rounds_enough`: in every state more rounds of the heap's functions change nothing
* `slots_in_one_place`: in every state each slot is in one place, caches are bounded and of their
  class, their groups stay, and threads that ended have none
-/

namespace OpenkalMusl

open Malloc Transition

/-- Where a thread has a slot. -/
inductive TcPlace where
  | cached (c k : ℕ)
  | transit
  deriving DecidableEq

/-- Who has a slot. -/
inductive SlotKeeper where
  | program
  | thread (t : ℕ) (w : TcPlace)
  deriving DecidableEq

/-- What a thread has. -/
def MallocThread.Keeps (th : MallocThread) : TcPlace → Slot → Prop
  | .cached c k, x => k < th.cache.n c ∧ th.cache.slot c k = x
  | .transit, x => th.now.slot? = some x

/-- **Who has which slot.** -/
def CacheSystem.Holds (s : CacheSystem) : SlotKeeper → Slot → Prop
  | .program, x => x ∈ s.program
  | .thread t w, x => (s.thread t).Keeps w x

/-! ## What one thread exchanges -/

namespace MallocThread

variable {th th' : MallocThread} {c : ℕ} {x : Slot}

/-- Nothing changes where the cache and the slot in transit are as they were. -/
theorem exchange_still (hcache : th'.cache = th.cache) (hnow : th'.now.slot? = th.now.slot?) :
    Exchange th.Keeps th'.Keeps none none := by
  rintro (⟨c, k⟩ | _) y
  · simp [Keeps, hcache]
  · simp [Keeps, hnow]

/-- Nor where both caches are empty. -/
theorem exchange_empty (hn : ∀ c, th.cache.n c = 0) (hn' : ∀ c, th'.cache.n c = 0)
    (hnow : th'.now.slot? = th.now.slot?) : Exchange th.Keeps th'.Keeps none none := by
  rintro (⟨c, k⟩ | _) y
  · simp [Keeps, hn, hn']
  · simp [Keeps, hnow]

/-- A slot leaves the cache, and is in transit. -/
theorem exchange_pop (hn : th.cache.n c ≠ 0) (hcache : th'.cache = th.cache.pop c)
    (hnow : th.now.slot? = none) (hnow' : th'.now.slot? = some (th.cache.last c)) :
    Exchange th.Keeps th'.Keeps (some (.cached c (th.cache.n c - 1), th.cache.last c))
      (some (.transit, th.cache.last c)) := by
  rintro (⟨d, k⟩ | _) y
  · show k < th'.cache.n d ∧ th'.cache.slot d k = y ↔ _
    simp only [hcache, Cache.pop, Keeps, ne_eq, Option.some.injEq, Prod.mk.injEq,
      TcPlace.cached.injEq, reduceCtorEq, false_and, or_false]
    by_cases hd : d = c
    · subst hd
      rw [Function.update_self]
      constructor
      · rintro ⟨hk, hy⟩
        exact ⟨⟨by omega, hy⟩, by omega⟩
      · rintro ⟨⟨hk, hy⟩, hne⟩
        refine ⟨?_, hy⟩
        by_contra hlt
        obtain rfl : th.cache.n d - 1 = k := by omega
        exact hne ⟨⟨rfl, rfl⟩, hy⟩
    · rw [Function.update_of_ne hd]
      constructor
      · exact fun hk => ⟨hk, fun heq => hd heq.1.1.symm⟩
      · exact fun hk => hk.1
  · simp [Keeps, hnow, hnow']

/-- A slot enters the cache, from `out`. -/
theorem exchange_push {out : Option (TcPlace × Slot)} (hcache : th'.cache = th.cache.push c x)
    (hout : ∀ d k y, out ≠ some (.cached d k, y))
    (hnow : ∀ y, th'.now.slot? = some y ↔ th.now.slot? = some y ∧ out ≠ some (.transit, y)) :
    Exchange th.Keeps th'.Keeps out (some (.cached c (th.cache.n c), x)) := by
  rintro (⟨d, k⟩ | _) y
  · show k < th'.cache.n d ∧ th'.cache.slot d k = y ↔ _
    simp only [hcache, Cache.push, Keeps, Option.some.injEq, Prod.mk.injEq, TcPlace.cached.injEq]
    by_cases hd : d = c
    · subst hd
      rw [Function.update_self, Function.update_self]
      by_cases hk : k = th.cache.n d
      · subst hk
        simp
      · rw [Function.update_of_ne hk]
        constructor
        · rintro ⟨hlt, hy⟩
          exact Or.inl ⟨⟨by omega, hy⟩, hout d k y⟩
        · rintro (⟨⟨hlt, hy⟩, -⟩ | ⟨⟨-, hlast⟩, -⟩)
          · exact ⟨by omega, hy⟩
          · exact absurd hlast.symm hk
    · rw [Function.update_of_ne hd, Function.update_of_ne hd]
      constructor
      · exact fun hk => Or.inl ⟨hk, hout d k y⟩
      · rintro (⟨hk, -⟩ | ⟨⟨hc, -⟩, -⟩)
        · exact hk
        · exact absurd hc.symm hd
  · simp [Keeps, hnow]

/-- A slot comes into transit, or leaves it. -/
theorem exchange_enter (hcache : th'.cache = th.cache) (hnow : th.now.slot? = none)
    (hnow' : th'.now.slot? = some x) :
    Exchange th.Keeps th'.Keeps none (some (.transit, x)) := by
  rintro (⟨c, k⟩ | _) y
  · simp [Keeps, hcache]
  · simp [Keeps, hnow, hnow']

theorem exchange_leave (hcache : th'.cache = th.cache) (hnow : th.now.slot? = some x)
    (hnow' : th'.now.slot? = none) :
    Exchange th.Keeps th'.Keeps (some (.transit, x)) none := by
  rintro (⟨c, k⟩ | _) y
  · simp [Keeps, hcache]
  · simp [Keeps, hnow, hnow']

/-- What waits below a thread, for the state of its field. -/
inductive Frames : TcField → List MallocFrame → Prop where
  | nil {f : TcField} : f ≠ .pending → Frames f []
  | large {f : TcField} {l : List MallocFrame} (n : ℕ) : Frames f l → Frames f (.large n :: l)
  | mapping {l : List MallocFrame} (n : ℕ) : Frames .unused l → Frames .pending (.mapping n :: l)
  | flush (c : ℕ) : Frames .off [.flush c]
  | ending : Frames .off [.ending]

/-- Below a thread that has a cache, or none yet, are mappings of large allocations alone. -/
theorem Frames.large_of {f : TcField} {l : List MallocFrame} (h : Frames f l)
    (hf : f = .unused ∨ f = .held) : ∀ a ∈ l, ∃ n, a = .large n := by
  induction h with
  | nil => exact fun a ha => absurd ha List.not_mem_nil
  | large n _ ih =>
    intro a ha
    rcases List.mem_cons.mp ha with rfl | ha
    · exact ⟨n, rfl⟩
    · exact ih hf a ha
  | mapping => rcases hf with hf | hf <;> cases hf
  | flush => rcases hf with hf | hf <;> cases hf
  | ending => rcases hf with hf | hf <;> cases hf

/-- A thread that flushes has its field off, and is not at its end. -/
theorem Frames.off_of_flush {f : TcField} {l : List MallocFrame} (h : Frames f l) {c : ℕ}
    (hc : .flush c ∈ l) : f = .off ∧ .ending ∉ l := by
  induction h with
  | nil => exact absurd hc List.not_mem_nil
  | large n _ ih =>
    obtain ⟨hoff, hend⟩ := ih ((List.mem_cons.mp hc).resolve_left nofun)
    exact ⟨hoff, fun he => hend ((List.mem_cons.mp he).resolve_left nofun)⟩
  | mapping n _ ih => cases (ih ((List.mem_cons.mp hc).resolve_left nofun)).1
  | flush => exact ⟨rfl, by simp⟩
  | ending => simp at hc

theorem Frames.of_large {f : TcField} {l : List MallocFrame} (hf : f ≠ .pending)
    (h : ∀ a ∈ l, ∃ n, a = .large n) : Frames f l := by
  induction l with
  | nil => exact .nil hf
  | cons a l ih =>
    obtain ⟨n, rfl⟩ := h a (List.mem_cons_self ..)
    exact .large n (ih fun b hb => h b (List.mem_cons_of_mem _ hb))

/-- A thread's record between two steps. -/
structure Ok (th : MallocThread) : Prop where
  frames : Frames th.field th.below
  empty : th.field ≠ .held → (∀ c, .flush c ∉ th.below) → ∀ c, th.cache.n c = 0
  flushed : ∀ c, .flush c ∈ th.below → ∀ d < c, th.cache.n d = 0
  bounded : ∀ c, th.cache.n c ≤ tcMax
  small : ∀ c, tcClasses ≤ c → th.cache.n c = 0

/-- Where the thread is does not matter to its record. -/
theorem Ok.at (h : th.Ok) (pc : MallocPc) : Ok { th with now := pc } :=
  ⟨h.frames, h.empty, h.flushed, h.bounded, h.small⟩

theorem Ok.unused (h : th.Ok) (hf : th.field = .unused ∨ th.field = .pending) (c : ℕ) :
    th.cache.n c = 0 := by
  refine h.empty ?_ (fun d hd => ?_) c
  · rcases hf with hf | hf <;> simp [hf]
  · rw [(h.frames.off_of_flush hd).1] at hf
    simp at hf

theorem Ok.ended (h : th.Ok) (he : .ending ∈ th.below) (c : ℕ) : th.cache.n c = 0 := by
  refine h.empty (fun hheld => ?_) (fun d hd => (h.frames.off_of_flush hd).2 he) c
  obtain ⟨n, hn⟩ := h.frames.large_of (Or.inr hheld) _ he
  cases hn

/-- A slot leaves the cache. -/
theorem Ok.pop (h : th.Ok) (c : ℕ) (pc : MallocPc) :
    Ok { th with cache := th.cache.pop c, now := pc } := by
  have hle : ∀ d, (th.cache.pop c).n d ≤ th.cache.n d := by
    intro d
    simp only [Cache.pop]
    by_cases hd : d = c
    · rw [hd, Function.update_self]
      exact Nat.sub_le ..
    · rw [Function.update_of_ne hd]
  have hzero : ∀ {d}, th.cache.n d = 0 → (th.cache.pop c).n d = 0 := fun hd =>
    Nat.le_zero.mp (hd ▸ hle _)
  exact ⟨h.frames, fun hf hl d => hzero (h.empty hf hl d), fun e he d hd =>
    hzero (h.flushed e he d hd),
    fun d => (hle d).trans (h.bounded d), fun d hd => hzero (h.small d hd)⟩

/-- A slot enters a cache that is held. -/
theorem Ok.push (h : th.Ok) (hheld : th.field = .held) (hc : c < tcClasses)
    (hn : th.cache.n c < tcMax) (x : Slot) (pc : MallocPc) :
    Ok { th with cache := th.cache.push c x, now := pc } := by
  have hlarge := h.frames.large_of (Or.inr hheld)
  have hother : ∀ {d}, d ≠ c → (th.cache.push c x).n d = th.cache.n d := fun hd => by
    simp only [Cache.push, Function.update_of_ne hd]
  refine ⟨h.frames, fun hf => absurd hheld hf, fun e he => ?_, fun d => ?_, fun d hd => ?_⟩
  · obtain ⟨n, hn⟩ := hlarge _ he
    cases hn
  · show (th.cache.push c x).n d ≤ tcMax
    by_cases hd : d = c
    · simp only [hd, Cache.push, Function.update_self]
      exact hn
    · rw [hother hd]
      exact h.bounded d
  · show (th.cache.push c x).n d = 0
    rw [hother (by omega)]
    exact h.small d hd

end MallocThread

/-! ## The slots that malloc serves -/

namespace Heap

variable {h h' : Heap}

/-- What an allocation under the lock does: it puts a slot out, or fails. -/
def Serves (h : Heap) (r : Option Slot × Heap) : Prop :=
  match r.1 with
  | none => Keeps h r.2
  | some x => Takes h x r.2

theorem serves_allocNew {env : HeapEnv} {sc n : ℕ} {r : Option Slot × Heap} (hok : h.Ok)
    (ha : h.allocNew env sc n = some r) : Serves h r := by
  unfold allocNew at ha
  cases halloc : allocSlot env allocFuel h sc n with
  | none =>
    rw [halloc] at ha
    cases ha
  | some r₁ =>
    obtain ⟨ridx, h₁⟩ := r₁
    obtain ⟨hdoes, -⟩ := takes_allocSlot env allocFuel h sc n ridx h₁ hok halloc
    simp only [halloc] at ha
    cases ridx with
    | none =>
      obtain rfl := Option.some.inj ha
      exact hdoes
    | some idx =>
      obtain ⟨m, hhead, htakes⟩ := hdoes
      simp only [hhead, Option.map_some, Option.some.injEq] at ha
      obtain rfl := ha
      exact htakes

theorem serves_mallocSlot {env : HeapEnv} {sc n : ℕ} {r : Option Slot × Heap} (hok : h.Ok)
    (ha : h.mallocSlot env sc n = some r) : Serves h r := by
  unfold mallocSlot at ha
  cases hhead : (h.active sc).head? with
  | none =>
    simp only [hhead] at ha
    exact serves_allocNew hok ha
  | some m =>
    obtain ⟨g, hg, -⟩ := hok.listed sc m (List.mem_of_mem_head? hhead)
    simp only [hhead, hg] at ha
    split_ifs at ha with hzero
    · exact serves_allocNew hok ha
    · obtain ⟨⟨first, h₁⟩, htake, rfl⟩ := Option.map_eq_some_iff.mp ha
      exact (takes_takeFirst hok hg rfl hzero htake).1

/-- A large allocation is a group of one slot, which is out. -/
theorem serves_mallocLarge (hok : h.Ok) (ok : Bool) (n : ℕ) : Serves h (h.mallocLarge ok n) := by
  have hseq := keeps_stepSeq hok
  unfold mallocLarge
  cases hmeta : h.stepSeq.allocMeta ok with
  | mk rm h₁ =>
    cases rm with
    | none =>
      rw [allocMeta_none hmeta]
      exact hseq
    | some m =>
      obtain ⟨hkeep, hm, hother, -⟩ := keeps_allocMeta hseq.ok hmeta
      have hall := hseq.trans hkeep
      have hother' : ∀ k, h.Reserved k → k ≠ m := fun k hk => hother k (hseq.reserved k hk)
      have hgok : (largeGroup n).Ok := by
        refine ⟨fun i hi => ?_, fun i hi => ?_, fun i hi => ?_, fun _ => rfl⟩ <;>
          simp [largeGroup] at hi
      have hout : ∀ i, (largeGroup n).Out i ↔ i = 0 := by
        intro i
        constructor
        · exact fun ho => Nat.le_zero.mp ho.le
        · rintro rfl
          exact ⟨le_rfl, by simp [largeGroup], by simp [largeGroup]⟩
      have hbare : h₁.Bare ⟨m, 0⟩ := by
        intro k g hg hnest
        obtain ⟨p, hp, -⟩ := hkeep.ok.nested k g _ hg hnest
        rw [hm.none] at hp
        cases hp
      refine ⟨evolves_newGroup hall.toEvolves hm hother' hgok (fun y hy => ?_), fun hmem => ?_,
        fun y => ?_⟩
      · cases hy
      · obtain ⟨p, hp, -⟩ := ((hall.issued _).mpr hmem).1
        rw [hm.none] at hp
        cases hp
      · rw [mem_issued_newGroup hm, ← hall.issued y]
        show _ ↔ _ ∨ (∃ p, h₁.metas y.group = some p ∧ p.Out y.idx) ∧ h₁.Bare y
        constructor
        · rintro ⟨⟨hy, ho⟩ | hold, hb, -⟩
          · exact Or.inl (Slot.ext hy ((hout _).mp ho))
          · exact Or.inr ⟨hold, hb⟩
        · rintro (rfl | ⟨hold, hb⟩)
          · exact ⟨Or.inl ⟨rfl, (hout 0).mpr rfl⟩, hbare, nofun⟩
          · exact ⟨Or.inr hold, hb, nofun⟩

end Heap

/-- What a thread has read of its slot's group is what the group has. -/
def MallocPc.Fresh (h : Heap) : MallocPc → Prop
  | .readFreed x freed | .readBoth x freed _ => ∀ g, h.metas x.group = some g → g.freedMask = freed
  | _ => True

namespace CacheSystem

variable {s s' : CacheSystem} {t : ℕ} {th : MallocThread} {h : Heap} {x : Slot}

/-! ## What the threads exchange -/

/-- A thread's place among the keepers. -/
def ofThread (t : ℕ) (p : TcPlace × Slot) : SlotKeeper × Slot := (.thread t p.1, p.2)

@[simp] theorem setThread_self (s : CacheSystem) (t : ℕ) (th : MallocThread) :
    (s.setThread t th).thread t = th := Function.update_self ..

theorem setThread_of_ne {u : ℕ} (hu : u ≠ t) : (s.setThread t th).thread u = s.thread u :=
  Function.update_of_ne hu ..

theorem map_ofThread_eq {o : Option (TcPlace × Slot)} {u : ℕ} {w : TcPlace} :
    o.map (ofThread t) = some (.thread u w, x) ↔ u = t ∧ o = some (w, x) := by
  rw [Option.map_eq_some_iff]
  constructor
  · rintro ⟨⟨w', y⟩, rfl, heq⟩
    simp only [ofThread, Prod.mk.injEq, SlotKeeper.thread.injEq] at heq
    obtain ⟨⟨rfl, rfl⟩, rfl⟩ := heq
    exact ⟨rfl, rfl⟩
  · rintro ⟨rfl, rfl⟩
    exact ⟨_, rfl, rfl⟩

theorem map_ofThread_ne_program {o : Option (TcPlace × Slot)} :
    o.map (ofThread t) ≠ some (.program, x) := by
  rw [ne_eq, Option.map_eq_some_iff]
  rintro ⟨p, -, heq⟩
  cases (Prod.mk.inj heq).1

/-- What one thread exchanges within itself, and with the heap. -/
theorem exchange_setThread {out into : Option (TcPlace × Slot)}
    (hx : Exchange (s.thread t).Keeps th.Keeps out into) :
    Exchange s.Holds (s.setThread t th).Holds (out.map (ofThread t)) (into.map (ofThread t)) := by
  rintro (_ | ⟨u, w⟩) y
  · simp only [map_ofThread_ne_program, ne_eq, not_false_eq_true, and_true, or_false]
    exact Iff.rfl
  · rw [ne_eq, map_ofThread_eq, map_ofThread_eq]
    by_cases hu : u = t
    · subst hu
      show ((s.setThread u th).thread u).Keeps w y ↔ _
      rw [setThread_self, hx w y]
      simp only [true_and]
      exact Iff.rfl
    · show ((s.setThread t th).thread u).Keeps w y ↔ _
      rw [setThread_of_ne hu]
      simp only [hu, false_and, not_false_eq_true, and_true, or_false]
      exact Iff.rfl

/-- A slot passes from a thread to the program. -/
theorem exchange_toProgram (hx : Exchange (s.thread t).Keeps th.Keeps (some (.transit, x)) none) :
    Exchange s.Holds ({ s with program := insert x s.program }.setThread t th).Holds
      (some (.thread t .transit, x)) (some (.program, x)) := by
  rintro (_ | ⟨u, w⟩) y
  · show y ∈ insert x s.program ↔ y ∈ s.program ∧ _ ∨ _
    simp [or_comm, eq_comm]
  · show (s.setThread t th).Holds (.thread u w) y ↔ _
    rw [exchange_setThread hx (.thread u w) y]
    simp [ofThread]

/-- A slot passes from the program to a thread. -/
theorem exchange_fromProgram (hx : Exchange (s.thread t).Keeps th.Keeps none (some (.transit, x))) :
    Exchange s.Holds ({ s with program := s.program.erase x }.setThread t th).Holds
      (some (.program, x)) (some (.thread t .transit, x)) := by
  rintro (_ | ⟨u, w⟩) y
  · show y ∈ s.program.erase x ↔ y ∈ s.program ∧ _ ∨ _
    simp [and_comm, eq_comm]
  · show (s.setThread t th).Holds (.thread u w) y ↔ _
    rw [exchange_setThread hx (.thread u w) y]
    simp [ofThread]

/-! ## The invariant -/

/-- **The invariant of the threads.** -/
structure Inv (s : CacheSystem) : Prop where
  heap : s.heap.Ok
  custody : Custody s.Holds s.heap.issued
  threads : ∀ t, (s.thread t).Ok
  classed : ∀ t c k, k < (s.thread t).cache.n c → ∀ g,
    s.heap.metas ((s.thread t).cache.slot c k).group = some g → g.sizeclass = c
  counted : s.alive.card + (if s.creating = none then 0 else 1) = s.threadsMinus1 + 1
  creator : ∀ t, s.creating = some t → t ∈ s.alive
  alone : s.needLocks ≠ .on → s.threadsMinus1 = 0
  fresh : s.needLocks = .off → ∀ t ∈ s.alive, (s.thread t).now.Fresh s.heap
  gone : ∀ t, t ∉ s.alive → (∀ c, (s.thread t).cache.n c = 0) ∧ (s.thread t).now = .idle

/-- Where the locks are not on, there is no second thread. -/
theorem Inv.eq_of_alone (hs : s.Inv) (hlocks : s.needLocks ≠ .on) {u : ℕ} (ht : t ∈ s.alive)
    (hu : u ∈ s.alive) : u = t := by
  have hcount := hs.counted
  rw [hs.alone hlocks] at hcount
  exact Finset.card_le_one.mp (by omega) u hu t ht

/-- **One thread acts**: it exchanges a slot with the heap, the program or within itself. -/
theorem Inv.act (hs : s.Inv) (ht : t ∈ s.alive) (hok : h.Ok) {program : Finset Slot}
    (hshape : ∀ y ∈ h.issued, y ∈ s.heap.issued → Heap.SameShape s.heap h y.group)
    (hcustody : Custody ({ s with heap := h, program := program }.setThread t th).Holds h.issued)
    {out into : Option (TcPlace × Slot)} (hx : Exchange (s.thread t).Keeps th.Keeps out into)
    (hclass : ∀ c k y, into = some (.cached c k, y) → ∀ g, h.metas y.group = some g →
      g.sizeclass = c)
    (hth : th.Ok) (hfresh : s.needLocks = .off → th.now.Fresh h) :
    Inv ({ s with heap := h, program := program }.setThread t th) := by
  have hold : ∀ u c k y, s.Holds (.thread u (.cached c k)) y → y ∈ h.issued →
      ∀ g, h.metas y.group = some g → g.sizeclass = c := by
    rintro u c k y ⟨hk, rfl⟩ hy g hg
    have hy' := hs.custody.held (.thread u (.cached c k)) _ ⟨hk, rfl⟩
    obtain ⟨g₀, hg₀, -⟩ := hy'.1
    obtain ⟨g', hg', hsc, -⟩ := hshape _ hy hy' g₀ hg₀
    rw [hg] at hg'
    obtain rfl := Option.some.inj hg'
    rw [hsc]
    exact hs.classed u c k hk g₀ hg₀
  refine ⟨hok, hcustody, fun u => ?_, fun u c k hk g hg => ?_, hs.counted, hs.creator, hs.alone,
    fun hoff u hu => ?_, fun u hu => ?_⟩
  · by_cases hu : u = t
    · subst hu
      rw [setThread_self]
      exact hth
    · rw [setThread_of_ne hu]
      exact hs.threads u
  · have hissued := hcustody.held (.thread u (.cached c k)) _ ⟨hk, rfl⟩
    by_cases hu : u = t
    · subst hu
      rw [setThread_self] at hk hg hissued
      rcases (hx (.cached c k) _).mp ⟨hk, rfl⟩ with ⟨hkept, -⟩ | hinto
      · exact hold u c k _ hkept hissued g hg
      · exact hclass c k _ hinto g hg
    · rw [setThread_of_ne hu] at hk hg hissued
      exact hold u c k _ ⟨hk, rfl⟩ hissued g hg
  · obtain rfl := hs.eq_of_alone (by rw [show s.needLocks = .off from hoff]; decide) ht hu
    rw [setThread_self]
    exact hfresh hoff
  · have hne : u ≠ t := by
      rintro rfl
      exact hu ht
    rw [setThread_of_ne hne]
    exact hs.gone u hu

/-- A thread moves on with what it has. -/
theorem Inv.still (hs : s.Inv) (ht : t ∈ s.alive)
    (hx : Exchange (s.thread t).Keeps th.Keeps none none)
    (hth : th.Ok) (hfresh : s.needLocks = .off → th.now.Fresh s.heap) : Inv (s.setThread t th) :=
  hs.act ht hs.heap (fun _ _ _ => Heap.SameShape.refl _)
    (hs.custody.still (exchange_setThread hx)) hx
    (fun _ _ _ heq => by cases heq) hth hfresh

/-- The library's lock is taken by a thread that has read nothing. -/
theorem Inv.lockTaken (hs : s.Inv) (ht : t ∈ s.alive) (hfresh : (s.thread t).now.Fresh s.heap) :
    Inv s.lockTaken := by
  unfold CacheSystem.lockTaken
  by_cases hlast : s.needLocks = .last
  · rw [if_pos hlast]
    have hlocks : s.needLocks ≠ .on := by rw [hlast]; decide
    refine ⟨hs.heap, hs.custody, hs.threads, hs.classed, hs.counted, hs.creator,
      fun _ => hs.alone hlocks, fun _ u hu => ?_, hs.gone⟩
    obtain rfl := hs.eq_of_alone hlocks ht hu
    exact hfresh
  · rw [if_neg hlast]
    exact hs

/-- A slot is put out, and the thread has it. -/
theorem Inv.gain (hs : s.Inv) (ht : t ∈ s.alive) (htakes : Heap.Takes s.heap x h) {w : TcPlace}
    (hx : Exchange (s.thread t).Keeps th.Keeps none (some (w, x)))
    (hclass : ∀ c k, w = .cached c k → ∀ g, h.metas x.group = some g → g.sizeclass = c)
    (hth : th.Ok) (hfresh : th.now.Fresh h) : Inv ({ s with heap := h }.setThread t th) := by
  refine hs.act ht htakes.ok (fun y _ _ => htakes.shape _)
    (hs.custody.gain htakes.fresh htakes.issued (exchange_setThread hx)) hx ?_ hth fun _ => hfresh
  intro c k y heq
  simp only [Option.some.injEq, Prod.mk.injEq] at heq
  obtain ⟨hw, rfl⟩ := heq
  exact hclass c k hw

/-- A slot that the thread has is taken back. -/
theorem Inv.drop (hs : s.Inv) (ht : t ∈ s.alive) (hfrees : Heap.Frees s.heap x h) {w : TcPlace}
    (hhas : (s.thread t).Keeps w x) (hx : Exchange (s.thread t).Keeps th.Keeps (some (w, x)) none)
    (hth : th.Ok) (hfresh : th.now.Fresh h) : Inv ({ s with heap := h }.setThread t th) := by
  have hholds : s.Holds (.thread t w) x := hhas
  have hcustody := hs.custody.drop hholds hfrees.issued (exchange_setThread hx)
  exact hs.act ht hfrees.ok (fun y hy _ => hfrees.shape y hy) hcustody hx
    (fun _ _ _ heq => by cases heq) hth fun _ => hfresh

/-- The heap changes, and no slot comes or goes. -/
theorem Inv.keep (hs : s.Inv) (ht : t ∈ s.alive) (hkeeps : Heap.Keeps s.heap h)
    (hx : Exchange (s.thread t).Keeps th.Keeps none none) (hth : th.Ok) (hfresh : th.now.Fresh h) :
    Inv ({ s with heap := h }.setThread t th) := by
  refine hs.act ht hkeeps.ok (fun y _ _ => hkeeps.shape _) ?_ hx (fun _ _ _ heq => by cases heq) hth
    fun _ => hfresh
  refine (hs.custody.still (exchange_setThread hx)).congr hkeeps.issued fun o y => ?_
  cases o <;> exact Iff.rfl

/-- A slot moves within the thread. -/
theorem Inv.pass (hs : s.Inv) (ht : t ∈ s.alive) {p w : TcPlace} (hhas : (s.thread t).Keeps p x)
    (hx : Exchange (s.thread t).Keeps th.Keeps (some (p, x)) (some (w, x)))
    (hclass : ∀ c k, w = .cached c k → ∀ g, s.heap.metas x.group = some g → g.sizeclass = c)
    (hth : th.Ok) (hfresh : th.now.Fresh s.heap) : Inv (s.setThread t th) := by
  have hholds : s.Holds (.thread t p) x := hhas
  refine hs.act ht hs.heap (fun _ _ _ => Heap.SameShape.refl _)
    (hs.custody.pass hholds (exchange_setThread hx)) hx ?_ hth fun _ => hfresh
  intro c k y heq
  simp only [Option.some.injEq, Prod.mk.injEq] at heq
  obtain ⟨hw, rfl⟩ := heq
  exact hclass c k hw

/-! ## The locked section of malloc -/

/-- `__malloc_tc_fill` claims slots of the class's group, one at a time. -/
theorem Inv.fillLoop {sc m : ℕ} (hsc : sc < tcClasses) (fuel : ℕ) (hs : s.Inv) (ht : t ∈ s.alive)
    (hheld : (s.thread t).field = .held) (hnow : ∀ h, (s.thread t).now.Fresh h)
    (hm : ∃ g, s.heap.metas m = some g ∧ g.sizeclass = sc)
    (hf : CacheSystem.fillLoop t sc m fuel s = some s') : s'.Inv := by
  induction fuel generalizing s with
  | zero =>
    obtain rfl := Option.some.inj hf
    exact hs
  | succ fuel ih =>
    unfold CacheSystem.fillLoop at hf
    by_cases hroom : (s.thread t).cache.n sc < tcBatch
    · obtain ⟨g, hg, hclass⟩ := hm
      simp only [if_pos hroom, hg] at hf
      by_cases hzero : g.availMask = 0
      · rw [if_pos hzero] at hf
        obtain rfl := Option.some.inj hf
        exact hs
      · rw [if_neg hzero] at hf
        cases htake : s.heap.takeFirst m g.availMask with
        | none =>
          rw [htake] at hf
          cases hf
        | some r =>
          obtain ⟨first, h⟩ := r
          simp only [htake] at hf
          obtain ⟨htakes, -, -⟩ := Heap.takes_takeFirst hs.heap hg rfl hzero htake
          obtain ⟨g', hg', hclass', -⟩ := htakes.shape m g hg
          have hmax : (s.thread t).cache.n sc < tcMax := hroom.trans (by decide)
          refine ih (hs.gain ht htakes (MallocThread.exchange_push rfl (fun _ _ _ => by simp)
            fun y => by simp) (fun c k heq k' hk' => ?_)
            ((hs.threads t).push hheld hsc hmax _ _) (hnow h)) ht ?_ ?_
              ⟨g', hg', hclass'.trans hclass⟩ hf
          · cases heq
            rw [hg'] at hk'
            obtain rfl := Option.some.inj hk'
            exact hclass'.trans hclass
          · rw [setThread_self]
            exact hheld
          · rw [setThread_self]
            exact hnow
    · rw [if_neg hroom] at hf
      obtain rfl := Option.some.inj hf
      exact hs

theorem Inv.tcFill {sc : ℕ} (hs : s.Inv) (ht : t ∈ s.alive) (hnow : ∀ h, (s.thread t).now.Fresh h)
    (hf : s.tcFill t sc = some s') : s'.Inv := by
  unfold CacheSystem.tcFill at hf
  split_ifs at hf with hnone
  · obtain rfl := Option.some.inj hf
    exact hs
  · rw [not_or, not_le, not_not] at hnone
    cases hhead : (s.heap.active sc).head? with
    | none =>
      rw [hhead] at hf
      obtain rfl := Option.some.inj hf
      exact hs
    | some m =>
      simp only [hhead] at hf
      exact hs.fillLoop hnone.1 _ ht hnone.2 hnow
        (hs.heap.listed sc m (List.mem_of_mem_head? hhead)) hf

/-- The end of the locked section, with a slot or without. -/
theorem Inv.served (hs : s.Inv) (ht : t ∈ s.alive) (hth : th.Ok)
    (hcache : th.cache = (s.thread t).cache) (hnow : (s.thread t).now.slot? = none)
    {r : Option Slot × Heap} (hr : s.heap.Serves r)
    (hserved : s.served t th r = some s') : s'.Inv := by
  obtain ⟨rx, h⟩ := r
  unfold CacheSystem.served at hserved
  cases rx with
  | none =>
    obtain rfl := Option.some.inj hserved
    exact hs.keep ht hr (MallocThread.exchange_still hcache hnow.symm) (hth.at _) trivial
  | some x =>
    have hinv : Inv ({ s with heap := h }.setThread t { th with now := .framing x }) :=
      hs.gain ht hr (MallocThread.exchange_enter hcache hnow rfl) (fun _ _ heq => by cases heq)
        (hth.at _) trivial
    simp only at hserved
    split_ifs at hserved
    · obtain ⟨g, -, hfill⟩ := Option.bind_eq_some_iff.mp hserved
      refine hinv.tcFill ht (fun h' => ?_) hfill
      rw [setThread_self]
      trivial
    · obtain rfl := Option.some.inj hserved
      exact hinv

/-! ## The steps of a thread -/

/-- A slot in transit is out. -/
theorem Inv.issued_of_transit (hs : s.Inv) (hnow : (s.thread t).now.slot? = some x) :
    x ∈ s.heap.issued := hs.custody.held (.thread t .transit) x hnow

/-- A thread that has no slot in transit takes the last of a class out of its cache. -/
theorem Inv.pop (hs : s.Inv) (ht : t ∈ s.alive) {c : ℕ} {pc : MallocPc}
    (hn : (s.thread t).cache.n c ≠ 0) (hnow : (s.thread t).now.slot? = none)
    (hpc : pc.slot? = some ((s.thread t).cache.last c)) (hfresh : pc.Fresh s.heap) :
    Inv (s.setThread t { s.thread t with cache := (s.thread t).cache.pop c, now := pc }) := by
  have hhas : (s.thread t).Keeps (.cached c ((s.thread t).cache.n c - 1))
    ((s.thread t).cache.last c) :=
    ⟨by omega, rfl⟩
  exact hs.pass ht hhas (MallocThread.exchange_pop hn rfl hnow hpc) (fun _ _ heq => by cases heq)
    ((hs.threads t).pop c pc) hfresh

theorem Inv.tcTake (hs : s.Inv) (ht : t ∈ s.alive) {n : ℕ} (hnow : (s.thread t).now = .take n) :
    Inv (s.setThread t ((s.thread t).tcTake n)) := by
  have hth := hs.threads t
  have hslot : (s.thread t).now.slot? = none := by rw [hnow]; rfl
  have hlock : Inv (s.setThread t { s.thread t with now := .lock n }) :=
    hs.still ht (MallocThread.exchange_still rfl hslot.symm) (hth.at _) fun _ => trivial
  unfold MallocThread.tcTake
  simp only
  split_ifs with hsc
  · exact hlock
  · split
    · -- the field is pending from now on, and the cache has nothing
      rename_i hfield
      have hzero := hth.unused (Or.inl hfield)
      refine hs.still ht (MallocThread.exchange_still rfl hslot.symm) ⟨.mapping n ?_,
        fun _ _ => hzero, fun _ _ d _ => hzero d, hth.bounded, hth.small⟩ fun _ => trivial
      rw [← hfield]
      exact hth.frames
    · exact hlock
    · exact hlock
    · split
      · exact hlock
      · rename_i c hc
        refine hs.pop ht ?_ hslot rfl trivial
        unfold Cache.takeClass at hc
        split_ifs at hc with hn hcoarse
        · obtain rfl := Option.some.inj hc
          exact hn
        · obtain rfl := Option.some.inj hc
          exact fun h0 => hcoarse (Or.inr (Or.inr (Or.inr h0)))

/-- `free` keeps the slot in the cache, or begins to release it. -/
theorem Inv.free (hs : s.Inv) (ht : t ∈ s.alive) (hnow : (s.thread t).now = .free x) {g : Group}
    (hg : s.heap.metas x.group = some g) :
    Inv (match if s.multi then (s.thread t).tcGive g x else none with
      | some th => s.setThread t th
      | none => s.setThread t { s.thread t with now := .release x }) := by
  have hslot : (s.thread t).now.slot? = some x := by rw [hnow]; rfl
  have hhas : (s.thread t).Keeps .transit x := hslot
  split
  · rename_i th hgive
    split_ifs at hgive
    unfold MallocThread.tcGive at hgive
    split_ifs at hgive with hnone
    simp only [not_or, not_le, not_not] at hnone
    obtain rfl := Option.some.inj hgive
    refine hs.pass ht hhas (MallocThread.exchange_push rfl (fun _ _ _ => by simp) fun y => ?_)
      (fun c k heq g' hg' => ?_)
      ((hs.threads t).push hnone.2.2.1 hnone.1 hnone.2.2.2 x .idle) trivial
    · show none = some y ↔ (s.thread t).now.slot? = some y ∧ _
      rw [hslot]
      simp
    · cases heq
      rw [hg] at hg'
      exact congrArg Group.sizeclass (Option.some.inj hg').symm
  · exact hs.still ht (MallocThread.exchange_still rfl hslot.symm) ((hs.threads t).at _)
      fun _ => trivial

/-- **The slot is freed without the lock**, where the word is as it was read. -/
theorem Inv.releaseTry (hs : s.Inv) (ht : t ∈ s.alive) {freed avail : BitVec 32}
    (hnow : (s.thread t).now = .readBoth x freed avail)
    (hr : s.releaseTry t x freed avail = some s') : s'.Inv := by
  have hslot : (s.thread t).now.slot? = some x := by rw [hnow]; rfl
  have hissued := hs.issued_of_transit hslot
  obtain ⟨g, hg, hout⟩ := hissued.1
  have hmove : ∀ pc : MallocPc, pc.slot? = some x → pc.Fresh s.heap →
      Inv (s.setThread t { s.thread t with now := pc }) := fun pc hpc hfresh =>
    hs.still ht (MallocThread.exchange_still rfl (hpc.trans hslot.symm)) ((hs.threads t).at _)
      fun _ => hfresh
  simp only [CacheSystem.releaseTry, hg, Option.bind_some] at hr
  split_ifs at hr with _ _ hchanged
  · obtain rfl := Option.some.inj hr
    exact hmove _ rfl trivial
  · obtain rfl := Option.some.inj hr
    exact hmove _ rfl trivial
  · obtain rfl := Option.some.inj hr
    -- a thread that is alone has read what is there
    have hsame : g.freedMask = freed := by
      by_cases hoff : s.needLocks = .off
      · have hfresh := hs.fresh hoff t ht
        rw [hnow] at hfresh
        exact hfresh g hg
      · by_contra hne
        exact hchanged ⟨decide_eq_true hoff, hne⟩
    have hlt : x.idx < 32 := lt_of_le_of_lt hout.le g.lastIdx.isLt
    have hfrees := Heap.frees_freed hs.heap hg hissued (Mask.getLsbD_add_bit hlt hout.freed)
    rw [hsame] at hfrees
    have hhas : (s.thread t).Keeps .transit x := hslot
    exact hs.drop ht hfrees hhas (MallocThread.exchange_leave rfl hslot rfl) ((hs.threads t).at _)
      trivial

theorem Inv.go (hs : s.Inv) (ht : t ∈ s.alive) {env : HeapEnv} (hgo : s.go t env = some s') :
    s'.Inv := by
  have hth := hs.threads t
  unfold CacheSystem.go at hgo
  simp only at hgo
  split at hgo
  · cases hgo
  · rename_i n hnow
    obtain rfl := Option.some.inj hgo
    refine hs.still ht (MallocThread.exchange_still rfl ?_) (hth.at _) fun _ => ?_
    · rw [hnow]
      split_ifs <;> rfl
    · show MallocPc.Fresh s.heap (if _ then _ else _)
      split_ifs <;> trivial
  · rename_i n hnow
    obtain rfl := Option.some.inj hgo
    exact hs.tcTake ht hnow
  · rename_i n hnow
    unfold mallocLocked at hgo
    have hfresh : (s.thread t).now.Fresh s.heap := by rw [hnow]; trivial
    have hinv := hs.lockTaken ht hfresh
    obtain ⟨r, hslot, hserved⟩ := Option.bind_eq_some_iff.mp hgo
    refine hinv.served ht (hinv.threads t) rfl ?_ (Heap.serves_mallocSlot hinv.heap hslot) hserved
    show (s.thread t).now.slot? = none
    rw [hnow]
    rfl
  · rename_i x hnow
    obtain rfl := Option.some.inj hgo
    have hslot : (s.thread t).now.slot? = some x := by rw [hnow]; rfl
    have hx : Exchange (s.thread t).Keeps ({ s.thread t with now := .idle } : MallocThread).Keeps
        (some (.transit, x)) none := MallocThread.exchange_leave rfl hslot rfl
    have hholds : s.Holds (.thread t .transit) x := hslot
    exact hs.act ht hs.heap (fun _ _ _ => Heap.SameShape.refl _)
      (hs.custody.pass hholds (exchange_toProgram hx)) hx (fun _ _ _ heq => by cases heq) (hth.at _)
      fun _ => trivial
  · rename_i x hnow
    obtain ⟨g, hg, rfl⟩ := Option.map_eq_some_iff.mp hgo
    exact hs.free ht hnow hg
  · rename_i x hnow
    obtain ⟨g, hg, rfl⟩ := Option.map_eq_some_iff.mp hgo
    refine hs.still ht (MallocThread.exchange_still rfl
      (by rw [hnow]; rfl)) (hth.at _) fun _ k hk => ?_
    rw [hg] at hk
    exact congrArg Group.freedMask (Option.some.inj hk).symm
  · rename_i x freed hnow
    obtain ⟨g, hg, rfl⟩ := Option.map_eq_some_iff.mp hgo
    refine hs.still ht (MallocThread.exchange_still rfl
      (by rw [hnow]; rfl)) (hth.at _) fun hoff => ?_
    have hfresh := hs.fresh hoff t ht
    rw [hnow] at hfresh
    exact hfresh
  · rename_i x freed avail hnow
    exact hs.releaseTry ht hnow hgo
  · rename_i x hnow
    obtain ⟨h, hfree, rfl⟩ := Option.map_eq_some_iff.mp hgo
    have hslot : (s.thread t).now.slot? = some x := by rw [hnow]; rfl
    have hinv := hs.lockTaken ht (by rw [hnow]; trivial)
    have hfrees := Heap.frees_nontrivialFree _ hinv.heap (hinv.issued_of_transit hslot) hfree
    have hhas : (s.lockTaken.thread t).Keeps .transit x := hslot
    exact hinv.drop ht hfrees hhas (MallocThread.exchange_leave rfl hslot rfl) (hth.at _) trivial

/-- The mapping of the cache returns, to a thread that has nothing cached. -/
theorem Inv.mapped (hs : s.Inv) (ht : t ∈ s.alive) (hnow : (s.thread t).now = .idle) {n : ℕ}
    {rest : List MallocFrame} (hbelow : (s.thread t).below = .mapping n :: rest) (ok : Bool) :
    Inv (s.setThread t ((s.thread t).mapped ok n rest)) := by
  have hth := hs.threads t
  have hpending : (s.thread t).field = .pending ∧ MallocThread.Frames .unused rest := by
    have hframes := hth.frames
    rw [hbelow] at hframes
    generalize hf : (s.thread t).field = f at hframes
    cases hframes with
    | mapping _ hrest => exact ⟨rfl, hrest⟩
  have hzero := hth.unused (Or.inr hpending.1)
  have hlarge := hpending.2.large_of (Or.inl rfl)
  unfold MallocThread.mapped
  split_ifs
  · refine hs.still ht (MallocThread.exchange_empty hzero (fun _ => rfl) (by rw [hnow]; rfl))
      ⟨.of_large (by simp) hlarge, fun _ _ _ => rfl, fun _ _ _ _ => rfl, fun _ => Nat.zero_le _,
        fun _ _ => rfl⟩ fun _ => trivial
  · refine hs.still ht (MallocThread.exchange_still rfl (by rw [hnow]; rfl))
      ⟨.of_large (by simp) hlarge, fun _ _ => hzero, fun _ _ d _ => hzero d, hth.bounded,
        hth.small⟩ fun _ => trivial

/-- The flush goes on at its class: below it nothing is left. -/
theorem Inv.flushNext (hs : s.Inv) (ht : t ∈ s.alive) (hnow : (s.thread t).now = .idle) {c : ℕ}
    {rest : List MallocFrame} (hbelow : (s.thread t).below = .flush c :: rest) :
    Inv (s.setThread t ((s.thread t).flushNext c rest)) := by
  have hth := hs.threads t
  have hoff : (s.thread t).field = .off ∧ rest = [] := by
    have hframes := hth.frames
    rw [hbelow] at hframes
    generalize hf : (s.thread t).field = f at hframes
    cases hframes
    exact ⟨rfl, rfl⟩
  obtain ⟨hfield, rfl⟩ := hoff
  have hless : ∀ d < c, (s.thread t).cache.n d = 0 :=
    hth.flushed c (hbelow ▸ List.mem_cons_self ..)
  have hstill : ∀ th : MallocThread, th.now = .idle →
      th.cache = (s.thread t).cache → th.Ok → Inv (s.setThread t th) := by
    intro th hidle hcache hok
    refine hs.still ht (MallocThread.exchange_still hcache (by rw [hidle, hnow])) hok fun _ => ?_
    rw [hidle]
    trivial
  unfold MallocThread.flushNext
  split_ifs with hend hzero
  · have hzero : ∀ d, (s.thread t).cache.n d = 0 := by
      intro d
      by_cases hd : d < c
      · exact hless d hd
      · exact hth.small d (by omega)
    refine hstill _ hnow rfl ⟨?_, fun _ _ => hzero, fun _ _ d _ => hzero d, hth.bounded, hth.small⟩
    show MallocThread.Frames (s.thread t).field _
    rw [hfield]
    exact .ending
  · refine hstill _ hnow rfl ⟨?_, fun _ hl => ?_, fun d hd e he => ?_, hth.bounded, hth.small⟩
    · show MallocThread.Frames (s.thread t).field _
      rw [hfield]
      exact .flush _
    · exact absurd (List.mem_cons_self ..) (hl (c + 1))
    · simp only [List.mem_singleton, MallocFrame.flush.injEq] at hd
      subst hd
      by_cases hec : e < c
      · exact hless e hec
      · obtain rfl : e = c := by omega
        exact hzero
  · exact hs.pop ht hzero (by rw [hnow]; rfl) rfl trivial

theorem Inv.resume (hs : s.Inv) (ht : t ∈ s.alive) (hnow : (s.thread t).now = .idle)
    {ok metaOk : Bool}
    (hr : s.resume t ok metaOk = some s') : s'.Inv := by
  have hth := hs.threads t
  unfold CacheSystem.resume at hr
  simp only at hr
  split at hr
  · cases hr
  · rename_i n rest hbelow
    obtain rfl := Option.some.inj hr
    exact hs.mapped ht hnow hbelow ok
  · rename_i n rest hbelow
    have hrest : ({ s.thread t with below := rest } : MallocThread).Ok := by
      have hframes := hth.frames
      have hsub : ∀ a ∈ rest, a ∈ (s.thread t).below := fun a ha =>
        hbelow ▸ List.mem_cons_of_mem _ ha
      refine ⟨?_, fun hf hl => hth.empty hf fun c hc => ?_, fun c hc => hth.flushed c (hsub _ hc),
        hth.bounded, hth.small⟩
      on_goal 2 =>
        rw [hbelow] at hc
        exact hl c ((List.mem_cons.mp hc).resolve_left nofun)
      rw [hbelow] at hframes
      show MallocThread.Frames (s.thread t).field rest
      generalize (s.thread t).field = f at hframes
      cases hframes with
      | large _ hrest => exact hrest
    have hslot : (s.thread t).now.slot? = none := by rw [hnow]; rfl
    split_ifs at hr
    · have hinv := hs.lockTaken ht (by rw [hnow]; trivial)
      exact hinv.served ht hrest rfl hslot (Heap.serves_mallocLarge hinv.heap metaOk n) hr
    · obtain rfl := Option.some.inj hr
      refine hs.still ht (MallocThread.exchange_still rfl rfl) hrest fun _ => ?_
      show MallocPc.Fresh s.heap (s.thread t).now
      rw [hnow]
      trivial
  · rename_i c rest hbelow
    obtain rfl := Option.some.inj hr
    exact hs.flushNext ht hnow hbelow
  · cases hr

/-! ## The beginning and the end of a thread -/

/-- `__malloc_tc_flush` begins: the field is off from now on. -/
theorem Inv.exit (hs : s.Inv) (ht : t ∈ s.alive) (hnow : (s.thread t).now = .idle)
    (hbelow : (s.thread t).below = []) : Inv (s.setThread t (s.thread t).flush) := by
  have hth := hs.threads t
  refine hs.still ht (MallocThread.exchange_still rfl rfl) ?_ fun _ => ?_
  · unfold MallocThread.flush
    split_ifs with hheld
    · refine ⟨.flush 0, fun _ hl => ?_, fun c hc d hd => ?_, hth.bounded, hth.small⟩
      · exact absurd (List.mem_cons_self ..) (hl 0)
      · simp only [List.mem_singleton, MallocFrame.flush.injEq] at hc
        omega
    · have hzero := hth.empty hheld fun c hc => by
        rw [hbelow] at hc
        exact List.not_mem_nil hc
      exact ⟨.ending, fun _ _ => hzero, fun _ _ d _ => hzero d, hth.bounded, hth.small⟩
  · show MallocPc.Fresh s.heap (s.thread t).now
    rw [hnow]
    trivial

/-- The thread ends, and another is left. -/
theorem Inv.ended (hs : s.Inv) (ht : t ∈ s.alive) (hnow : (s.thread t).now = .idle)
    (hbelow : (s.thread t).below = [.ending]) (hnone : s.creating = none) (hother : s.alive ≠ {t}) :
    Inv { s with
      alive := s.alive.erase t
      threadsMinus1 := s.threadsMinus1 - 1
      needLocks := if s.threadsMinus1 - 1 = 0 then .last else s.needLocks } := by
  have hcount := hs.counted
  rw [if_pos hnone] at hcount
  have htwo : 2 ≤ s.alive.card := by
    by_contra hlt
    refine hother (Finset.eq_singleton_iff_unique_mem.mpr ⟨ht, fun u hu => ?_⟩)
    exact Finset.card_le_one.mp (by omega) u hu t ht
  have hcard := Finset.card_erase_of_mem ht
  have hon : s.needLocks = .on := by
    by_contra hne
    have := hs.alone hne
    omega
  refine ⟨hs.heap, hs.custody, hs.threads, hs.classed, ?_, fun u hu => ?_, fun hlocks => ?_,
    fun hoff => ?_, fun u hu => ?_⟩
  · simp only [hnone, if_true]
    omega
  · rw [show s.creating = some u from hu] at hnone
    cases hnone
  · by_contra hne
    exact hlocks ((if_neg hne).trans hon)
  · simp only [hon] at hoff
    split_ifs at hoff
  · by_cases hut : u = t
    · subst hut
      exact ⟨(hs.threads u).ended (hbelow ▸ List.mem_singleton_self _), hnow⟩
    · exact hs.gone u fun hmem => hu (Finset.mem_erase.mpr ⟨hut, hmem⟩)

/-- A new thread is counted, and the locks are on. -/
theorem Inv.count (hs : s.Inv) (ht : t ∈ s.alive) (hnone : s.creating = none) :
    Inv { s with
      creating := some t
      threadsMinus1 := s.threadsMinus1 + 1
      needLocks := if s.threadsMinus1 = 0 then .on else s.needLocks } := by
  have hcount := hs.counted
  rw [if_pos hnone] at hcount
  have hon : (if s.threadsMinus1 = 0 then NeedLocks.on else s.needLocks) = .on := by
    split_ifs with hzero
    · rfl
    · by_contra hne
      exact hzero (hs.alone hne)
  refine ⟨hs.heap, hs.custody, hs.threads, hs.classed, ?_, fun u hu => ?_,
    fun hlocks => absurd hon hlocks, fun hoff => ?_, hs.gone⟩
  · simp only [reduceCtorEq, if_false]
    omega
  · obtain rfl := Option.some.inj hu
    exact ht
  · cases hon.symm.trans hoff

/-- A thread is made, with nothing. -/
theorem Inv.created (hs : s.Inv) (ht : t ∈ s.alive) (hcreating : s.creating = some t) {u : ℕ}
    (hu : u ∉ s.alive) :
    Inv ({ s with creating := none, alive := insert u s.alive }.setThread u .new) := by
  obtain ⟨hempty, hidle⟩ := hs.gone u hu
  have hcount := hs.counted
  rw [hcreating] at hcount
  simp only [reduceCtorEq, if_false] at hcount
  have hpos : 1 ≤ s.alive.card := Finset.card_pos.mpr ⟨t, ht⟩
  have hon : s.needLocks = .on := by
    by_contra hne
    have := hs.alone hne
    omega
  have hx : Exchange (s.thread u).Keeps MallocThread.new.Keeps none none :=
    MallocThread.exchange_empty hempty (fun _ => rfl) (by rw [hidle]; rfl)
  refine ⟨hs.heap, ?_, fun v => ?_, fun v c k hk => ?_, ?_, fun v hv => ?_, fun hlocks => ?_,
    fun hoff => ?_, fun v hv => ?_⟩
  · refine (hs.custody.still (exchange_setThread hx)).congr (fun _ => Iff.rfl) fun o y => ?_
    cases o <;> exact Iff.rfl
  · by_cases hv : v = u
    · subst hv
      rw [setThread_self]
      exact ⟨.nil nofun, fun _ _ _ => rfl, nofun, fun _ => Nat.zero_le _, fun _ _ => rfl⟩
    · rw [setThread_of_ne hv]
      exact hs.threads v
  · by_cases hv : v = u
    · subst hv
      rw [setThread_self] at hk
      exact absurd hk (Nat.not_lt_zero k)
    · rw [setThread_of_ne hv] at hk ⊢
      exact hs.classed v c k hk
  · show (insert u s.alive).card + (if (none : Option ℕ) = none then 0 else 1) = s.threadsMinus1 + 1
    rw [Finset.card_insert_of_notMem hu, if_pos rfl]
    omega
  · cases hv
  · exact absurd hon hlocks
  · cases hon.symm.trans hoff
  · have hmem : v ∉ s.alive ∧ v ≠ u := by
      refine ⟨fun hmem => hv (Finset.mem_insert_of_mem hmem), ?_⟩
      rintro rfl
      exact hv (Finset.mem_insert_self ..)
    rw [setThread_of_ne hmem.2]
    exact hs.gone v hmem.1

/-- A thread is not made, and no longer counted. -/
theorem Inv.notCreated (hs : s.Inv) (ht : t ∈ s.alive) (hnow : (s.thread t).now = .idle)
    (hcreating : s.creating = some t) :
    Inv { s with
      creating := none
      threadsMinus1 := s.threadsMinus1 - 1
      needLocks := if s.threadsMinus1 - 1 = 0 then .off else s.needLocks } := by
  have hcount := hs.counted
  rw [hcreating] at hcount
  simp only [reduceCtorEq, if_false] at hcount
  have hpos : 1 ≤ s.alive.card := Finset.card_pos.mpr ⟨t, ht⟩
  have hon : s.needLocks = .on := by
    by_contra hne
    have := hs.alone hne
    omega
  refine ⟨hs.heap, hs.custody, hs.threads, hs.classed, ?_, nofun, fun hlocks => ?_,
    fun hoff u hu => ?_,
    hs.gone⟩
  · simp only [if_true]
    omega
  · by_contra hne
    exact hlocks ((if_neg hne).trans hon)
  · -- the thread is alone again, and in neither function
    have hzero : s.threadsMinus1 - 1 = 0 := by
      by_contra hne
      simp only [if_neg hne, hon, reduceCtorEq] at hoff
    have hone : s.alive.card ≤ 1 := by omega
    obtain rfl : u = t := Finset.card_le_one.mp hone u hu t ht
    show MallocPc.Fresh s.heap (s.thread u).now
    rw [hnow]
    trivial

theorem Inv.call (hs : s.Inv) (ht : t ∈ s.alive) (hnow : (s.thread t).now = .idle) {a : Move}
    (hc : s.call t a = some s') : s'.Inv := by
  have hth := hs.threads t
  have hfresh : ∀ h, (s.thread t).now.Fresh h := fun h => by rw [hnow]; trivial
  cases a with
  | malloc n =>
    simp only [CacheSystem.call] at hc
    split_ifs at hc
    · obtain rfl := Option.some.inj hc
      exact hs
    · obtain rfl := Option.some.inj hc
      have hmem : ∀ {a : MallocFrame}, (∀ k, a ≠ .large k) → a ∈ .large n :: (s.thread t).below →
          a ∈ (s.thread t).below := fun ha hmem => (List.mem_cons.mp hmem).resolve_left (ha n)
      exact hs.still ht (MallocThread.exchange_still rfl rfl)
        ⟨.large n hth.frames, fun hf hl => hth.empty hf fun c hc =>
          hl c (List.mem_cons_of_mem _ hc),
          fun c hc => hth.flushed c (hmem nofun hc), hth.bounded, hth.small⟩ fun _ => hfresh _
    · obtain rfl := Option.some.inj hc
      exact hs.still ht (MallocThread.exchange_still rfl
        (by rw [hnow]; rfl)) (hth.at _) fun _ => trivial
  | free x =>
    simp only [CacheSystem.call] at hc
    split_ifs at hc with hmem
    obtain rfl := Option.some.inj hc
    have hx : Exchange (s.thread t).Keeps ({ s.thread t with now := .free x } : MallocThread).Keeps
        none (some (.transit, x)) := MallocThread.exchange_enter rfl (by rw [hnow]; rfl) rfl
    have hholds : s.Holds .program x := hmem
    exact hs.act ht hs.heap (fun _ _ _ => Heap.SameShape.refl _)
      (hs.custody.pass hholds (exchange_fromProgram hx)) hx
        (fun _ _ _ heq => by cases heq) (hth.at _)
      fun _ => trivial
  | go env => cases hc
  | resume ok metaOk => exact hs.resume ht hnow hc
  | lock =>
    obtain rfl := Option.some.inj hc
    exact hs.lockTaken ht (hfresh _)
  | exit =>
    simp only [CacheSystem.call] at hc
    split_ifs at hc with hbelow
    obtain rfl := Option.some.inj hc
    exact hs.exit ht hnow hbelow
  | ended =>
    simp only [CacheSystem.call] at hc
    by_cases hend : (s.thread t).below = [.ending] ∧ s.creating = none ∧ s.alive ≠ {t}
    · rw [if_pos hend] at hc
      obtain rfl := Option.some.inj hc
      exact hs.ended ht hnow hend.1 hend.2.1 hend.2.2
    · rw [if_neg hend] at hc
      cases hc
  | count =>
    simp only [CacheSystem.call] at hc
    by_cases hnone : s.creating = none
    · rw [if_pos hnone] at hc
      obtain rfl := Option.some.inj hc
      exact hs.count ht hnone
    · rw [if_neg hnone] at hc
      cases hc
  | created u =>
    simp only [CacheSystem.call] at hc
    by_cases hnew : s.creating = some t ∧ u ∉ s.alive
    · rw [if_pos hnew] at hc
      obtain rfl := Option.some.inj hc
      exact hs.created ht hnew.1 hnew.2
    · rw [if_neg hnew] at hc
      cases hc
  | notCreated =>
    simp only [CacheSystem.call] at hc
    by_cases hcreating : s.creating = some t
    · rw [if_pos hcreating] at hc
      obtain rfl := Option.some.inj hc
      exact hs.notCreated ht hnow hcreating
    · rw [if_neg hcreating] at hc
      cases hc

/-- **A step keeps the invariant.** -/
theorem Inv.step (hs : s.Inv) {a : ℕ × Move} (hstep : s.step a = some s') : s'.Inv := by
  obtain ⟨t, move⟩ := a
  unfold CacheSystem.step at hstep
  by_cases ht : t ∈ s.alive
  · rw [if_pos ht] at hstep
    split at hstep
    · exact hs.go ht hstep
    · by_cases hnow : (s.thread t).now = .idle
      · rw [if_pos hnow] at hstep
        exact hs.call ht hnow hstep
      · rw [if_neg hnow] at hstep
        cases hstep
  · rw [if_neg ht] at hstep
    cases hstep

theorem inv_start (pagesize : ℕ) : (start pagesize).Inv := by
  refine ⟨⟨nofun, nofun, nofun, List.nodup_nil, nofun, fun _ => List.nodup_nil, nofun, nofun⟩,
    ⟨?_, ?_⟩, fun t => ⟨.nil nofun, fun _ _ _ => rfl, nofun, fun _ =>
      Nat.zero_le _, fun _ _ => rfl⟩,
    fun t c k hk => absurd hk (Nat.not_lt_zero k), rfl, nofun, fun _ => rfl, fun _ t _ => trivial,
    fun t _ => ⟨fun _ => rfl, rfl⟩⟩
  · rintro x ⟨⟨g, hg, -⟩, -⟩
    cases hg
  · rintro (_ | ⟨t, ⟨c, k⟩ | _⟩) x hx
    · exact absurd hx (Finset.notMem_empty x)
    · exact absurd hx.1 (Nat.not_lt_zero k)
    · cases hx

/-! ## The places of a slot -/

end CacheSystem

/-- Where a slot of a group is. -/
inductive SlotPlace where
  | avail
  | freed
  /-- A group is laid out in it. -/
  | storage (m : ℕ)
  | cached (t c k : ℕ)
  | program
  | transit (t : ℕ)
  deriving DecidableEq

/-- The place of what a keeper has. -/
def SlotKeeper.place : SlotKeeper → SlotPlace
  | .program => .program
  | .thread t (.cached c k) => .cached t c k
  | .thread t .transit => .transit t

namespace CacheSystem

variable {s : CacheSystem} {x : Slot} {g : Group}

/-- **The places of a slot.** -/
def At (s : CacheSystem) (x : Slot) : SlotPlace → Prop
  | .avail => ∃ g, s.heap.metas x.group = some g ∧ g.availMask.getLsbD x.idx = true
  | .freed => ∃ g, s.heap.metas x.group = some g ∧ g.freedMask.getLsbD x.idx = true
  | .storage m => ∃ g, s.heap.metas m = some g ∧ g.nested = some x
  | .cached t c k =>
    t ∈ s.alive ∧ k < (s.thread t).cache.n c ∧ (s.thread t).cache.slot c k = x
  | .program => x ∈ s.program
  | .transit t => t ∈ s.alive ∧ (s.thread t).now.slot? = some x

/-- Who has a slot is a thread of the list, or the program. -/
theorem Inv.at_place (hs : s.Inv) {o : SlotKeeper} (ho : s.Holds o x) : s.At x o.place := by
  rcases o with _ | ⟨t, ⟨c, k⟩ | _⟩
  · exact ho
  · refine ⟨?_, ho⟩
    by_contra ht
    obtain ⟨hk, -⟩ := ho
    rw [(hs.gone t ht).1 c] at hk
    exact absurd hk (Nat.not_lt_zero k)
  · refine ⟨?_, ho⟩
    by_contra ht
    have hslot : (s.thread t).now.slot? = some x := ho
    rw [(hs.gone t ht).2] at hslot
    cases hslot

/-- A place is one of the group's words, a group's, or a keeper's. -/
theorem at_cases {p : SlotPlace} (hp : s.At x p) :
    p = .avail ∨ p = .freed ∨ (∃ m, p = .storage m) ∨ ∃ o, p = o.place ∧ s.Holds o x := by
  cases p with
  | avail => exact Or.inl rfl
  | freed => exact Or.inr (Or.inl rfl)
  | storage m => exact Or.inr (Or.inr (Or.inl ⟨m, rfl⟩))
  | cached t c k => exact Or.inr (Or.inr (Or.inr ⟨.thread t (.cached c k), rfl, hp.2⟩))
  | program => exact Or.inr (Or.inr (Or.inr ⟨.program, rfl, hp⟩))
  | transit t => exact Or.inr (Or.inr (Or.inr ⟨.thread t .transit, rfl, hp.2⟩))

/-- A slot of neither word is where a group is laid out in it, or with its keeper. -/
theorem Inv.out_of_at (hs : s.Inv) (hg : s.heap.metas x.group = some g) {p : SlotPlace}
    (hp : s.At x p) (ha : p ≠ .avail) (hf : p ≠ .freed) : g.Out x.idx := by
  have hout : ∃ k, s.heap.metas x.group = some k ∧ k.Out x.idx := by
    rcases at_cases hp with rfl | rfl | ⟨m, rfl⟩ | ⟨o, rfl, ho⟩
    · exact absurd rfl ha
    · exact absurd rfl hf
    · obtain ⟨k, hk, hnest⟩ := hp
      exact hs.heap.nested m k x hk hnest
    · exact (hs.custody.held o x ho).1
  obtain ⟨k, hk, hko⟩ := hout
  rw [hg] at hk
  obtain rfl := Option.some.inj hk
  exact hko

/-- **Each slot of a group is in one place.** -/
theorem Inv.one_place (hs : s.Inv) (hg : s.heap.metas x.group = some g)
    (hle : x.idx ≤ g.lastIdx.val) : ∃! p, s.At x p := by
  have hgok := hs.heap.groups _ g hg
  have hword : ∀ {p}, s.At x p → (p = .avail → g.availMask.getLsbD x.idx = true) ∧
      (p = .freed → g.freedMask.getLsbD x.idx = true) := by
    intro p hp
    constructor <;>
    · rintro rfl
      obtain ⟨k, hk, hbit⟩ := hp
      rw [hg] at hk
      obtain rfl := Option.some.inj hk
      exact hbit
  cases havail : g.availMask.getLsbD x.idx with
  | true =>
    refine ⟨.avail, ⟨g, hg, havail⟩, fun p hp => ?_⟩
    by_contra hne
    by_cases hf : p = .freed
    · have := (hword hp).2 hf
      rw [hgok.apart _ havail] at this
      cases this
    · have := (hs.out_of_at hg hp hne hf).avail
      rw [havail] at this
      cases this
  | false =>
    have hna : ∀ {p}, s.At x p → p ≠ .avail := fun hp heq => by
      have := (hword hp).1 heq
      rw [havail] at this
      cases this
    cases hfreed : g.freedMask.getLsbD x.idx with
    | true =>
      refine ⟨.freed, ⟨g, hg, hfreed⟩, fun p hp => ?_⟩
      by_contra hne
      have := (hs.out_of_at hg hp (hna hp) hne).freed
      rw [hfreed] at this
      cases this
    | false =>
      have hnf : ∀ {p}, s.At x p → p ≠ .freed := fun hp heq => by
        have := (hword hp).2 heq
        rw [hfreed] at this
        cases this
      by_cases hbare : s.heap.Bare x
      · have hissued : x ∈ s.heap.issued := ⟨⟨g, hg, hle, havail, hfreed⟩, hbare⟩
        obtain ⟨o, ho, huniq⟩ := hs.custody.one x hissued
        refine ⟨o.place, hs.at_place ho, fun p hp => ?_⟩
        rcases at_cases hp with hpa | hpf | ⟨m, rfl⟩ | ⟨o', rfl, ho'⟩
        · exact absurd hpa (hna hp)
        · exact absurd hpf (hnf hp)
        · obtain ⟨k, hk, hnest⟩ := hp
          exact absurd hnest (hbare m k hk)
        · rw [huniq o' ho']
      · -- a group is laid out in it, and no other
        simp only [Heap.Bare, ne_eq, not_forall, not_not] at hbare
        obtain ⟨m, k, hk, hnest⟩ := hbare
        refine ⟨.storage m, ⟨k, hk, hnest⟩, fun p hp => ?_⟩
        rcases at_cases hp with hpa | hpf | ⟨m', rfl⟩ | ⟨o, rfl, ho⟩
        · exact absurd hpa (hna hp)
        · exact absurd hpf (hnf hp)
        · obtain ⟨k', hk', hnest'⟩ := hp
          rw [hs.heap.once m' m k' k x hk' hk hnest' hnest]
        · exact absurd hnest ((hs.custody.held o x ho).2 m k hk)

theorem inv_of_reachable (pagesize : ℕ) (h : Reachable step (start pagesize) s) : s.Inv :=
  h.invariant (inv_start pagesize) fun _ _ _ hu hv => hu.step hv

/-- **The rounds are enough.** In every state that the threads reach, an allocation and a `free`
that are given more of them do the same. -/
theorem rounds_enough (pagesize : ℕ) (h : Reachable step (start pagesize) s) (env : HeapEnv)
    (k : ℕ) :
    (∀ sc n, Heap.allocSlot env (Heap.allocFuel + k) s.heap sc n =
      Heap.allocSlot env Heap.allocFuel s.heap sc n) ∧
    ∀ x, Heap.nontrivialFree (s.heap.freeFuel + k) s.heap x =
      Heap.nontrivialFree s.heap.freeFuel s.heap x :=
  ⟨Heap.allocSlot_allocFuel env k s.heap,
    Heap.nontrivialFree_availMeta (inv_of_reachable pagesize h).heap k⟩

/-- **The caches lose and duplicate no slot.** In every state that the threads reach, each slot of a
group is in one place; a cache has no more of a class than its bound, and of groups of that class
that are in use; and a thread that is not of the list has none. -/
theorem slots_in_one_place (pagesize : ℕ) (h : Reachable step (start pagesize) s) :
    (∀ x g, s.heap.metas x.group = some g → x.idx ≤ g.lastIdx.val → ∃! p, s.At x p) ∧
    (∀ t c, (s.thread t).cache.n c ≤ tcMax) ∧
    (∀ t c k, k < (s.thread t).cache.n c →
      ∃ g, s.heap.metas ((s.thread t).cache.slot c k).group = some g ∧ g.sizeclass = c ∧
        ((s.thread t).cache.slot c k).idx ≤ g.lastIdx.val) ∧
    ∀ t, t ∉ s.alive → ∀ c, (s.thread t).cache.n c = 0 := by
  have hs := inv_of_reachable pagesize h
  refine ⟨fun x g hg hle => hs.one_place hg hle, fun t => (hs.threads t).bounded,
    fun t c k hk => ?_,
    fun t ht => (hs.gone t ht).1⟩
  have hissued := hs.custody.held (.thread t (.cached c k)) _ ⟨hk, rfl⟩
  obtain ⟨g, hg, hout⟩ := hissued.1
  exact ⟨g, hg, hs.classed t c k hk g hg, hout.le⟩

/-- Memory is there whenever it is asked for. -/
def plenty : HeapEnv := ⟨fun _ => true, fun _ => true⟩

/-- A second thread is made; the first allocates, with a cache that is mapped meanwhile, and the
second frees what it got. -/
def passing : List (ℕ × Move) :=
  [(0, .count), (0, .created 1), (0, .malloc 16), (0, .go plenty), (0, .go plenty),
    (0, .resume true true), (0, .go plenty), (0, .go plenty), (0, .go plenty), (1, .free ⟨0, 0⟩),
    (1, .go plenty), (1, .go plenty)]

theorem slots_passing :
    ∃ s, Reachable step (start 4096) s ∧ (s.thread 0).cache.n 1 = 8 ∧
      (s.thread 1).now = .readFreed ⟨0, 0⟩ 0 ∧
      (∀ x g, s.heap.metas x.group = some g → x.idx ≤ g.lastIdx.val → ∃! p, s.At x p) ∧
      ∀ t, t ∉ s.alive → ∀ c, (s.thread t).cache.n c = 0 := by
  have hrun : (run step (start 4096) passing).map
    (fun s => ((s.thread 0).cache.n 1, (s.thread 1).now)) =
      some (8, .readFreed ⟨0, 0⟩ 0) := by decide +kernel
  obtain ⟨s, hs, heq⟩ := Option.map_eq_some_iff.mp hrun
  obtain ⟨hn, hnow⟩ := Prod.mk.inj heq
  have hall := slots_in_one_place 4096 ⟨passing, hs⟩
  exact ⟨s, ⟨passing, hs⟩, hn, hnow, hall.1, hall.2.2.2⟩

end CacheSystem

end OpenkalMusl
